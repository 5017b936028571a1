import PromptTags.Tag.Lookup

/-! Trees within trees. What is asked of all trees within a mapping is asked of it and of the trees within its
children. Keys lead from a mapping to the trees within it, and where keys are distinct a path is looked up by
going where its keys lead. -/
namespace PromptTags.Node

/-- A tree stands within itself, and within a mapping if it stands within a child of it. -/
inductive Within : Node → Node → Prop
  | refl (n : Node) : Within n n
  | child {m : Node} {entry : Text × Node} {children : List (Text × Node)}
      (hentry : entry ∈ children) (h : Within m entry.2) : Within m (map children)

@[simp] theorem within_scalar {m : Node} {value : Text} :
    Within m (scalar value) ↔ m = scalar value := by
  constructor
  · intro h
    cases h
    rfl
  · rintro rfl
    exact .refl _

@[simp] theorem within_list {m : Node} {values : List Text} :
    Within m (list values) ↔ m = list values := by
  constructor
  · intro h
    cases h
    rfl
  · rintro rfl
    exact .refl _

@[simp] theorem within_map {m : Node} {children : List (Text × Node)} :
    Within m (map children) ↔ m = map children ∨ ∃ entry ∈ children, Within m entry.2 := by
  constructor
  · intro h
    cases h with
    | refl => exact .inl rfl
    | child hentry h => exact .inr ⟨_, hentry, h⟩
  · rintro (rfl | ⟨entry, hentry, h⟩)
    · exact .refl _
    · exact .child hentry h

theorem ordered_of_within {m n : Node} (h : Within m n) (hn : n.Ordered) : m.Ordered := by
  induction h with
  | refl => exact hn
  | child hentry _ ih => exact ih ((ordered_map.1 hn).2 _ hentry)

theorem within_trans {l m n : Node} (h : Within l m) (h' : Within m n) : Within l n := by
  induction h' with
  | refl => exact h
  | child hentry _ ih => exact .child hentry ih

/-- Without keys a tree leads to itself, and a mapping leads by a key and further keys to what the child under
the key leads to. -/
inductive Leads : Node → List Text → Node → Prop
  | here (n : Node) : Leads n [] n
  | child {children : List (Text × Node)} {entry : Text × Node} {keys : List Text} {m : Node}
      (hentry : entry ∈ children) (h : Leads entry.2 keys m) :
      Leads (map children) (entry.1 :: keys) m

theorem within_iff_leads {m n : Node} : Within m n ↔ ∃ keys, n.Leads keys m := by
  constructor
  · intro h
    induction h with
    | refl => exact ⟨[], .here _⟩
    | child hentry _ ih =>
      obtain ⟨keys, hkeys⟩ := ih
      exact ⟨_, .child hentry hkeys⟩
  · rintro ⟨keys, h⟩
    induction h with
    | here => exact .refl _
    | child hentry _ ih => exact .child hentry ih

theorem leads_of_descend {key : Text} {m n : Node} {keys : List Text}
    (h : descend key n keys = .ok m) : n.Leads keys m := by
  induction keys generalizing key n with
  | nil =>
    rw [descend] at h
    cases h
    exact .here _
  | cons k ks ih =>
    obtain ⟨children, child, rfl, hg, h⟩ := descend_cons_eq_ok.1 h
    exact .child (Keyed.mem_of_get? hg) (ih h)

theorem descend_of_leads {m n : Node} {keys : List Text} (h : n.Leads keys m) (hn : n.Ordered)
    (key : Text) : descend key n keys = .ok m := by
  induction h generalizing key with
  | here => rw [descend]
  | child hentry _ ih =>
    -- where keys are distinct, the child under a key is the one that stands there
    obtain ⟨hsorted, hchildren⟩ := ordered_map.1 hn
    exact descend_cons_eq_ok.2
      ⟨_, _, rfl, Keyed.get?_of_mem hsorted hentry, ih (hchildren _ hentry) _⟩

/-- A key of a mapping that stands within a tree. -/
def HasKey (n : Node) (key : Text) : Prop :=
  ∃ children, Within (map children) n ∧ key ∈ Keyed.keys children

@[simp] theorem hasKey_scalar {value key : Text} : ¬ (scalar value).HasKey key := by
  simp [HasKey]

@[simp] theorem hasKey_list {values : List Text} {key : Text} : ¬ (list values).HasKey key := by
  simp [HasKey]

@[simp] theorem hasKey_map {children : List (Text × Node)} {key : Text} :
    (map children).HasKey key ↔ ∃ entry ∈ children, key = entry.1 ∨ entry.2.HasKey key := by
  constructor
  · rintro ⟨inner, hinner, hkey⟩
    rcases within_map.1 hinner with h | ⟨entry, hentry, h⟩
    · obtain rfl := map.inj h
      obtain ⟨entry, hentry, rfl⟩ := List.mem_map.1 hkey
      exact ⟨entry, hentry, .inl rfl⟩
    · exact ⟨entry, hentry, .inr ⟨inner, h, hkey⟩⟩
  · rintro ⟨entry, hentry, rfl | ⟨inner, hinner, hkey⟩⟩
    · exact ⟨children, .refl _, List.mem_map_of_mem hentry⟩
    · exact ⟨inner, .child hentry hinner, hkey⟩

/-- The keys that lead somewhere are keys of the tree. -/
theorem hasKey_of_leads {m n : Node} {keys : List Text} (h : n.Leads keys m) :
    ∀ key ∈ keys, n.HasKey key := by
  induction h with
  | here => simp
  | child hentry _ ih =>
    intro key hkey
    refine hasKey_map.2 ⟨_, hentry, ?_⟩
    exact (List.mem_cons.1 hkey).imp_right (ih key)

theorem ne_nil_of_lookup {base : Keyed Node} {path : List Text} {n : Node}
    (h : lookup base path = .ok n) : path ≠ [] := by
  rintro rfl
  cases h

/-- To look a path up is to go down from the mapping it starts from. -/
theorem descend_map (key : Text) (base : Keyed Node) {path : List Text} (h : path ≠ []) :
    descend key (map base) path = lookup base path := by
  cases path with
  | nil => exact absurd rfl h
  | cons k ks => rfl

theorem leads_of_lookup {base : Keyed Node} {path : List Text} {n : Node}
    (h : lookup base path = .ok n) : (map base).Leads path n :=
  leads_of_descend ((descend_map [] base (ne_nil_of_lookup h)).trans h)

theorem within_of_lookup {base : Keyed Node} {path : List Text} {n : Node}
    (h : lookup base path = .ok n) : Within n (map base) :=
  within_iff_leads.2 ⟨path, leads_of_lookup h⟩

theorem hasKey_of_lookup {base : Keyed Node} {path : List Text} {n : Node}
    (h : lookup base path = .ok n) : ∀ k ∈ path, (map base).HasKey k :=
  hasKey_of_leads (leads_of_lookup h)

/-- A path is gone on with from where it leads, under its last key. -/
theorem descend_append {key : Text} {m n : Node} {path : List Text}
    (h : descend key n path = .ok m) (more : List Text) :
    descend key n (path ++ more) =
      descend ((key :: path).getLast (List.cons_ne_nil key path)) m more := by
  induction path generalizing key n with
  | nil =>
    rw [descend] at h
    cases h
    rfl
  | cons k ks ih =>
    obtain ⟨children, child, rfl, hg, h⟩ := descend_cons_eq_ok.1 h
    rw [List.getLast_cons (List.cons_ne_nil k ks)]
    simp only [List.cons_append, descend, hg]
    exact ih h

/-- From where a path leads, keys lead to just what is found when they are put behind the path. -/
theorem leads_iff_lookup {base : Keyed Node} (hbase : (map base).Ordered) {path : List Text}
    {n : Node} (hn : lookup base path = .ok n) {keys : List Text} {m : Node} :
    n.Leads keys m ↔ lookup base (path ++ keys) = .ok m := by
  have hpath := ne_nil_of_lookup hn
  rw [← descend_map [] base (List.append_ne_nil_of_left_ne_nil hpath keys),
    descend_append ((descend_map [] base hpath).trans hn) keys]
  constructor
  · intro h
    exact descend_of_leads h (ordered_of_within (within_of_lookup hn) hbase) _
  · exact leads_of_descend

end PromptTags.Node
