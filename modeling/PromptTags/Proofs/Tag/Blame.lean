import PromptTags.Proofs.Tag.Routes

/-! Looking up a path in parts, and what a path that leads nowhere is blamed on. A path is looked up by going on
from where its first part leads; the key that is blamed is that of the first bad step. -/
namespace PromptTags.Node

/-- The mapping that keys lead to, by way of mappings only. -/
def mappingAt? (base : Keyed Node) : List Text → Option (Keyed Node)
  | [] => some base
  | k :: ks =>
    match Keyed.get? k base with
    | some (map children) => mappingAt? children ks
    | _ => none

variable {base children : Keyed Node} {k key : Text} {ks p q : List Text} {n : Node}

/-! ### Parts of a path -/

theorem lookup_append_of_error {e : ResolutionError} (hp : p ≠ []) (h : lookup base p = .error e)
    (q : List Text) : lookup base (p ++ q) = .error e := by
  have hdescend (key : Text) (m : Node) (ks : List Text) (h : descend key m ks = .error e) :
      descend key m (ks ++ q) = .error e := by
    induction ks generalizing key m with
    | nil => cases h
    | cons k ks ih =>
      cases m with
      | scalar value => exact h
      | list values => exact h
      | map children =>
        rw [List.cons_append, descend]
        rw [descend] at h
        cases hg : Keyed.get? k children with
        | none => rwa [hg] at h
        | some child =>
          rw [hg] at h
          exact ih k child h
  rw [← descend_map [] base hp] at h
  rw [← descend_map [] base (List.append_ne_nil_of_left_ne_nil hp q)]
  exact hdescend [] (map base) p h

theorem lookup_append_of_ok (h : lookup base p = .ok n) (q : List Text) :
    lookup base (p ++ q) = descend (p.getLast (ne_nil_of_lookup h)) n q := by
  have hp := ne_nil_of_lookup h
  rw [← descend_map [] base (List.append_ne_nil_of_left_ne_nil hp q),
    descend_append ((descend_map [] base hp).trans h) q, List.getLast_cons hp]

/-! ### One step -/

theorem lookup_cons_of_none (h : Keyed.get? k base = none) :
    lookup base (k :: ks) = .error (.keyNotFound k) := by
  rw [lookup, h]

theorem lookup_cons_of_leaf (h : Keyed.get? k base = some n) (hn : n.isLeaf = true)
    (hks : ks ≠ []) : lookup base (k :: ks) = .error (.shapeMismatch k) := by
  obtain ⟨next, ks, rfl⟩ := List.exists_cons_of_ne_nil hks
  rw [lookup, h]
  cases n with
  | scalar value => rfl
  | list values => rfl
  | map children => cases hn

theorem lookup_cons_of_map (h : Keyed.get? k base = some (map children)) (hks : ks ≠ []) :
    lookup base (k :: ks) = lookup children ks := by
  rw [← descend_map k children hks, lookup, h]

theorem mappingAt?_cons_of_map (h : Keyed.get? k base = some (map children)) (ks : List Text) :
    mappingAt? base (k :: ks) = mappingAt? children ks := by
  rw [mappingAt?, h]

theorem mappingAt?_cons_of_leaf (h : Keyed.get? k base = some n) (hn : n.isLeaf = true)
    (ks : List Text) : mappingAt? base (k :: ks) = none := by
  rw [mappingAt?, h]
  cases n with
  | scalar value => rfl
  | list values => rfl
  | map children => cases hn

/-- From a mapping that keys lead to, the rest of a path is looked up as from the start. -/
theorem lookup_append_of_mappingAt? (h : mappingAt? base p = some children) (hq : q ≠ []) :
    lookup base (p ++ q) = lookup children q := by
  induction p generalizing base with
  | nil =>
    rw [mappingAt?] at h
    cases h
    rfl
  | cons k ks ih =>
    rw [mappingAt?] at h
    split at h
    · next inner hinner =>
      rw [List.cons_append, lookup_cons_of_map hinner (List.append_ne_nil_of_right_ne_nil ks hq)]
      exact ih h
    · cases h

theorem mappingAt?_append_leaf (h : mappingAt? base p = some children)
    (hkey : Keyed.get? key children = some n) (hn : n.isLeaf = true) :
    mappingAt? base (p ++ [key]) = none := by
  induction p generalizing base with
  | nil =>
    rw [mappingAt?] at h
    cases h
    exact mappingAt?_cons_of_leaf hkey hn []
  | cons k ks ih =>
    rw [mappingAt?] at h
    split at h
    · next inner hinner =>
      rw [List.cons_append, mappingAt?_cons_of_map hinner]
      exact ih h
    · cases h

/-! ### Good and bad steps -/

/-- Before each key of a path the keys lead to a mapping that holds it. -/
def Passable (base : Keyed Node) (path : List Text) : Prop :=
  ∀ before key after, path = before ++ key :: after →
    ∃ children, mappingAt? base before = some children ∧ (Keyed.get? key children).isSome = true

/-- A bad step of a path, with the error for it: the keys before it lead to a mapping, but that mapping lacks
the key, or has no mapping under it although the path goes on. -/
inductive BadStep (base : Keyed Node) (path : List Text) : ResolutionError → Prop
  | missing {before after : List Text} {key : Text} {children : Keyed Node}
      (hpath : path = before ++ key :: after) (hbefore : mappingAt? base before = some children)
      (hkey : Keyed.get? key children = none) : BadStep base path (.keyNotFound key)
  | leaf {before after : List Text} {key : Text} {children : Keyed Node} {n : Node}
      (hpath : path = before ++ key :: after) (hbefore : mappingAt? base before = some children)
      (hkey : Keyed.get? key children = some n) (hn : n.isLeaf = true) (hafter : after ≠ []) :
      BadStep base path (.shapeMismatch key)

variable {path : List Text} {e : ResolutionError}

theorem badStep_cons_of_map (h : Keyed.get? k base = some (map children))
    (hbad : BadStep children path e) : BadStep base (k :: path) e := by
  have hstep (before : List Text) : mappingAt? base (k :: before) = mappingAt? children before :=
    mappingAt?_cons_of_map h before
  cases hbad with
  | missing hpath hbefore hkey =>
    exact .missing (congrArg (k :: ·) hpath) ((hstep _).trans hbefore) hkey
  | leaf hpath hbefore hkey hn hafter =>
    exact .leaf (congrArg (k :: ·) hpath) ((hstep _).trans hbefore) hkey hn hafter

theorem badStep_of_lookup (hpath : path ≠ []) (h : lookup base path = .error e) :
    BadStep base path e := by
  induction path generalizing base with
  | nil => exact absurd rfl hpath
  | cons k ks ih =>
    cases hg : Keyed.get? k base with
    | none =>
      rw [lookup_cons_of_none hg] at h
      cases h
      exact BadStep.missing (List.nil_append (k :: ks)).symm rfl hg
    | some n =>
      by_cases hks : ks = []
      · -- at its last key a path may end in any node
        subst hks
        rw [lookup_singleton, hg] at h
        cases h
      · cases n with
        | map children =>
          rw [lookup_cons_of_map hg hks] at h
          exact badStep_cons_of_map hg (ih hks h)
        | scalar value =>
          rw [lookup_cons_of_leaf hg rfl hks] at h
          cases h
          exact BadStep.leaf (List.nil_append (k :: ks)).symm rfl hg rfl hks
        | list values =>
          rw [lookup_cons_of_leaf hg rfl hks] at h
          cases h
          exact BadStep.leaf (List.nil_append (k :: ks)).symm rfl hg rfl hks

theorem lookup_of_badStep (h : BadStep base path e) : lookup base path = .error e := by
  cases h with
  | missing hpath hbefore hkey =>
    rw [hpath, lookup_append_of_mappingAt? hbefore (List.cons_ne_nil _ _)]
    exact lookup_cons_of_none hkey
  | leaf hpath hbefore hkey hn hafter =>
    rw [hpath, lookup_append_of_mappingAt? hbefore (List.cons_ne_nil _ _)]
    exact lookup_cons_of_leaf hkey hn hafter

/-- What is blamed is the bad step, of which there is only one. -/
theorem lookup_eq_error_iff :
    lookup base path = .error e ↔ path = [] ∧ e = .keyNotFound [] ∨ BadStep base path e := by
  constructor
  · intro h
    by_cases hpath : path = []
    · subst hpath
      cases h
      exact .inl ⟨rfl, rfl⟩
    · exact .inr (badStep_of_lookup hpath h)
  · rintro (⟨rfl, rfl⟩ | hbad)
    · rfl
    · exact lookup_of_badStep hbad

theorem passable_of_lookup (h : lookup base path = .ok n) : Passable base path := by
  rintro before key after rfl
  induction before generalizing base with
  | nil =>
    refine ⟨base, rfl, ?_⟩
    cases hg : Keyed.get? key base with
    | none =>
      rw [List.nil_append, lookup_cons_of_none hg] at h
      cases h
    | some child => rfl
  | cons k ks ih =>
    have hrest : ks ++ key :: after ≠ [] := by simp
    cases hg : Keyed.get? k base with
    | none =>
      rw [List.cons_append, lookup_cons_of_none hg] at h
      cases h
    | some child =>
      cases child with
      | map children =>
        rw [List.cons_append, lookup_cons_of_map hg hrest] at h
        rw [mappingAt?_cons_of_map hg]
        exact ih h
      | scalar value =>
        rw [List.cons_append, lookup_cons_of_leaf hg rfl hrest] at h
        cases h
      | list values =>
        rw [List.cons_append, lookup_cons_of_leaf hg rfl hrest] at h
        cases h

theorem not_badStep_of_passable (h : Passable base path) : ¬ BadStep base path e := by
  rintro (⟨hpath, hbefore, hkey⟩ | ⟨hpath, hbefore, hkey, hn, hafter⟩)
  · obtain ⟨children, hchildren, hsome⟩ := h _ _ _ hpath
    rw [hbefore] at hchildren
    cases hchildren
    simp [hkey] at hsome
  · -- the key behind the leaf would have to be in a mapping there
    obtain ⟨next, after, rfl⟩ := List.exists_cons_of_ne_nil hafter
    obtain ⟨children, hchildren, -⟩ := h _ next after (hpath.trans (List.append_cons _ _ _))
    rw [mappingAt?_append_leaf hbefore hkey hn] at hchildren
    cases hchildren

/-- A path leads somewhere if it can be passed key by key. -/
theorem exists_lookup_eq_ok_iff :
    (∃ n, lookup base path = .ok n) ↔ path ≠ [] ∧ Passable base path := by
  constructor
  · rintro ⟨n, h⟩
    exact ⟨ne_nil_of_lookup h, passable_of_lookup h⟩
  · rintro ⟨hpath, hpass⟩
    cases h : lookup base path with
    | ok n => exact ⟨n, rfl⟩
    | error e => exact absurd (badStep_of_lookup hpath h) (not_badStep_of_passable hpass)

/-- A path of two parts gives the error of its first part; or the error of going on from a leaf, which names
the last key of the first part; or what the second part gives from the mapping that the first part leads to.
So a path leads somewhere exactly if each of its keys is held by the mapping that the keys before it lead to,
and one that does not is blamed on its one bad step. The empty path leads nowhere. -/
theorem lookup_by_parts_with_blame (base : Keyed Node) :
    (∀ (p q : List Text) (hp : p ≠ []), q ≠ [] →
      lookup base (p ++ q) =
        match lookup base p with
        | .error e => .error e
        | .ok (.map children) => lookup children q
        | .ok _ => .error (.shapeMismatch (p.getLast hp))) ∧
    (∀ path, (∃ n, lookup base path = .ok n) ↔ path ≠ [] ∧ Passable base path) ∧
    ∀ path e, lookup base path = .error e ↔
      path = [] ∧ e = .keyNotFound [] ∨ BadStep base path e := by
  refine ⟨?_, fun path => exists_lookup_eq_ok_iff, fun path e => lookup_eq_error_iff⟩
  intro p q hp hq
  cases h : lookup base p with
  | error e => exact lookup_append_of_error hp h q
  | ok n =>
    rw [lookup_append_of_ok h]
    obtain ⟨k, ks, rfl⟩ := List.exists_cons_of_ne_nil hq
    cases n with
    | scalar value => rfl
    | list values => rfl
    | map children => exact descend_map _ children (List.cons_ne_nil k ks)

/-- A list is reached three keys down: going on from it is blamed on the last of them, wherever the path is
parted. -/
theorem lookup_by_parts_with_blame_behind_list :
    let base : Keyed Node := [(Text.lit "a", .map [(Text.lit "b", .map [
      (Text.lit "c", .list [Text.lit "x"]), (Text.lit "d", .scalar (Text.lit "y"))])])]
    let a := [Text.lit "a"]
    let abc := [Text.lit "a", Text.lit "b", Text.lit "c"]
    let bcd := [Text.lit "b", Text.lit "c", Text.lit "d"]
    let d := [Text.lit "d"]
    (a ≠ [] ∧ bcd ≠ [] ∧ lookup base (a ++ bcd) = .error (.shapeMismatch (Text.lit "c"))) ∧
      (abc ≠ [] ∧ d ≠ [] ∧ lookup base (abc ++ d) = .error (.shapeMismatch (Text.lit "c"))) := by
  intro base a abc bcd d
  have ha : a ≠ [] := by decide
  have hbcd : bcd ≠ [] := by decide
  have habc : abc ≠ [] := by decide
  have hd : d ≠ [] := by decide
  obtain ⟨hparts, -, -⟩ := lookup_by_parts_with_blame base
  exact ⟨⟨ha, hbcd, hparts a bcd ha hbcd⟩, ⟨habc, hd, hparts abc d habc hd⟩⟩

end PromptTags.Node
