import Mathlib.Data.Fintype.Card
import Mathlib.Data.Set.Finite.Basic
import Mathlib.Logic.Relation
import PromptTags.Proofs.Expansion.Template
import PromptTags.Proofs.Tag.Leaves

/-! The recursive expansion of a template: every directive gives the expansion of the scalar it names, in
its place. It exists as soon as the scalars name each other without a cycle, and replacing one directive by
its scalar keeps it. -/
namespace PromptTags

namespace Template

variable {namespaces : Keyed Node} {T U : Template} {keys : List Text} {n : Nat} {u : Text}

/-- A text of proper pieces. -/
def WellFormed (t : Text) : Prop := ∃ T : Template, T.Proper ∧ T.text = t

/-- The recursive expansion of a template: plain pieces are kept, and each directive gives the
expansion of the scalar it names. The number counts all directives that are replaced. -/
inductive Expands (namespaces : Keyed Node) : Template → Nat → Text → Prop
  | nil : Expands namespaces [] 0 []
  | plain {x u : Text} {T : Template} {n : Nat} (h : Expands namespaces T n u) :
    Expands namespaces (.plain x :: T) n (x ++ u)
  | directive {keys : List Text} {inner T : Template} {m n : Nat} {v u : Text}
      (hproper : inner.Proper) (hlookup : Node.lookup namespaces keys = .ok (.scalar inner.text))
      (hv : Expands namespaces inner m v) (h : Expands namespaces T n u) :
    Expands namespaces (.directive keys :: T) (m + n + 1) (v ++ u)

/-- The scalar under one path names another path. -/
def Calls (namespaces : Keyed Node) (caller callee : List Text) : Prop :=
  ∃ inner : Template, inner.Proper ∧
    Node.lookup namespaces caller = .ok (.scalar inner.text) ∧ callee ∈ inner.named

/-- The paths that a template names, itself or through the scalars it names. -/
def Reaches (namespaces : Keyed Node) (T : Template) (keys : List Text) : Prop :=
  ∃ start ∈ T.named, Relation.ReflTransGen (Calls namespaces) start keys

/-- The scalar under a path, read as a template. -/
def leaf (namespaces : Keyed Node) (keys : List Text) : Template :=
  match Node.lookup namespaces keys with
  | .ok (.scalar value) => ofText value
  | _ => []

section Expansion

theorem expands_append {m : Nat} {v : Text} (hT : Expands namespaces T m v)
    (hU : Expands namespaces U n u) : Expands namespaces (T ++ U) (m + n) (v ++ u) := by
  induction hT with
  | nil =>
    rw [Nat.zero_add]
    exact hU
  | plain _ ih =>
    rw [List.append_assoc]
    exact .plain ih
  | @directive keys inner T m₁ n₁ v u hproper hlookup hv _ _ ih =>
    rw [List.append_assoc, show m₁ + n₁ + 1 + n = m₁ + (n₁ + n) + 1 by omega]
    exact .directive hproper hlookup hv ih

/-- How plain text is cut does not matter to the expansion. -/
theorem expands_ofText (h : Expands namespaces T n u) (hT : Proper T) :
    Expands namespaces (ofText T.text) n u := by
  induction h with
  | nil =>
    rw [text_nil, ofText_nil]
    exact .plain .nil
  | @plain x u T n _ ih =>
    obtain ⟨hx, htail⟩ := proper_cons.1 hT
    obtain ⟨y, U, h₁, h₂⟩ := ofText_plain hx T
    have hU := ih htail
    rw [h₁] at hU
    rw [h₂]
    cases hU with
    | plain hU =>
      rw [← List.append_assoc]
      exact .plain hU
  | directive hproper hlookup hv _ _ ih =>
    obtain ⟨hk, htail⟩ := proper_cons.1 hT
    rw [ofText_directive hk]
    exact .plain (.directive hproper hlookup hv (ih htail))

theorem expands_of_ofText (h : Expands namespaces (ofText T.text) n u) (hT : Proper T) :
    Expands namespaces T n u := by
  induction T generalizing n u with
  | nil =>
    rw [text_nil, ofText_nil] at h
    cases h with
    | plain h =>
      cases h
      exact .nil
  | cons p T ih =>
    obtain ⟨hp, htail⟩ := proper_cons.1 hT
    cases p with
    | plain x =>
      obtain ⟨y, U, h₁, h₂⟩ := ofText_plain hp T
      rw [h₂] at h
      cases h with
      | plain h =>
        rw [List.append_assoc]
        apply Expands.plain
        apply ih _ htail
        rw [h₁]
        exact .plain h
    | directive k =>
      rw [ofText_directive hp] at h
      cases h with
      | plain h =>
        cases h with
        | directive hproper hlookup hv h =>
          rw [List.nil_append]
          exact .directive hproper hlookup hv (ih h htail)

/-- A template has at most one recursive expansion. -/
theorem expands_unique {n' : Nat} {u' : Text} (h : Expands namespaces T n u)
    (h' : Expands namespaces T n' u') : n = n' ∧ u = u' := by
  induction h generalizing n' u' with
  | nil =>
    cases h'
    exact ⟨rfl, rfl⟩
  | plain _ ih =>
    cases h' with
    | plain h' =>
      obtain ⟨rfl, rfl⟩ := ih h'
      exact ⟨rfl, rfl⟩
  | directive hproper hlookup _ _ ihv ih =>
    cases h' with
    | @directive _ inner' _ _ _ _ _ hproper' hlookup' hv' h' =>
      -- the two readings of the scalar differ at most in how plain text is cut
      rw [hlookup] at hlookup'
      injection hlookup' with hnode
      injection hnode with htext
      have hread := expands_ofText hv' hproper'
      rw [← htext] at hread
      obtain ⟨rfl, rfl⟩ := ihv (expands_of_ofText hread hproper)
      obtain ⟨rfl, rfl⟩ := ih h'
      exact ⟨rfl, rfl⟩

theorem leaf_of_lookup {inner : Template} (hproper : inner.Proper)
    (h : Node.lookup namespaces keys = .ok (.scalar inner.text)) :
    (leaf namespaces keys).Proper ∧ (leaf namespaces keys).text = inner.text := by
  obtain ⟨h₁, h₂, -⟩ := ofText_text hproper
  rw [leaf, h]
  exact ⟨h₁, h₂⟩

theorem leaf_of_expands (h : Expands namespaces T n u) (hk : keys ∈ T.named) :
    (leaf namespaces keys).Proper ∧
      Node.lookup namespaces keys = .ok (.scalar (leaf namespaces keys).text) := by
  induction h with
  | nil => cases hk
  | plain _ ih => exact ih hk
  | directive hproper hlookup _ _ _ ih =>
    rcases List.mem_cons.1 hk with rfl | hk
    · obtain ⟨h₁, h₂⟩ := leaf_of_lookup hproper hlookup
      exact ⟨h₁, h₂ ▸ hlookup⟩
    · exact ih hk

/-- Replacing a directive by the scalar it names keeps the expansion, and there is one replacement
less to make. -/
theorem expands_put (h : Expands namespaces T n u) (hk : keys ∈ T.named) :
    ∃ m, n = m + 1 ∧ Expands namespaces (put keys (leaf namespaces keys) T) m u := by
  induction h with
  | nil => cases hk
  | plain _ ih =>
    obtain ⟨m, hm, h⟩ := ih hk
    exact ⟨m, hm, .plain h⟩
  | @directive k inner T m n v u hproper hlookup hv h _ ih =>
    by_cases heq : k = keys
    -- the first directive with the path gives way to the pieces of its scalar
    · subst heq
      refine ⟨m + n, rfl, ?_⟩
      rw [put, if_pos rfl, leaf, hlookup]
      exact expands_append (expands_ofText hv hproper) h
    · obtain ⟨m', rfl, h'⟩ := ih ((List.mem_cons.1 hk).resolve_left (Ne.symm heq))
      refine ⟨m + m' + 1, by omega, ?_⟩
      rw [put, if_neg heq]
      exact .directive hproper hlookup hv h'

theorem eq_text_of_expands (h : Expands namespaces T n u) (hT : T.named = []) : u = T.text := by
  induction h with
  | nil => rfl
  | plain _ ih => rw [ih hT, text_plain]
  | directive => cases hT

theorem length_named_le (h : Expands namespaces T n u) : T.named.length ≤ n := by
  induction h with
  | nil => exact Nat.le_refl _
  | plain _ ih => exact ih
  | directive _ _ _ _ _ ih =>
    rw [named, List.length_cons]
    omega

end Expansion

section Acyclic

theorem exists_expands_of_named
    (h : ∀ keys ∈ T.named, ∃ n u, Expands namespaces [.directive keys] n u) :
    ∃ n u, Expands namespaces T n u := by
  induction T with
  | nil => exact ⟨0, [], .nil⟩
  | cons p T ih =>
    cases p with
    | plain x =>
      obtain ⟨n, u, hT⟩ := ih h
      exact ⟨n, _, .plain hT⟩
    | directive k =>
      obtain ⟨m, v, hk⟩ := h k List.mem_cons_self
      obtain ⟨n, u, hT⟩ := ih fun keys hkeys => h keys (List.mem_cons_of_mem _ hkeys)
      exact ⟨_, _, expands_append hk hT⟩

theorem finite_reaches (namespaces : Keyed Node) (T : Template) :
    {keys | Reaches namespaces T keys}.Finite := by
  have hfinite := List.finite_toSet (T.named ++
    (namespaces.flatMap fun entry => entry.2.leaves).flatMap fun v => (ofText v).named)
  -- the last call on the way reads the path out of a leaf
  apply hfinite.subset
  rintro keys ⟨start, hstart, hreach⟩
  apply List.mem_append.2
  rcases hreach.cases_tail with rfl | ⟨caller, -, inner, hproper, hlookup, hmem⟩
  · exact .inl hstart
  · obtain ⟨entry, hentry, hleaf⟩ :=
      Node.leaves_of_lookup hlookup (v := inner.text) (by simp)
    rw [← (ofText_text hproper).2.2] at hmem
    exact .inr (List.mem_flatMap.2 ⟨inner.text, List.mem_flatMap.2 ⟨entry, hentry, hleaf⟩, hmem⟩)

theorem wellFounded_calls (hacyclic : ∀ keys, Reaches namespaces T keys →
    ¬ Relation.TransGen (Calls namespaces) keys keys) :
    WellFounded fun a b : {keys // Reaches namespaces T keys} =>
      Relation.TransGen (Calls namespaces) b.1 a.1 := by
  have : Finite {keys // Reaches namespaces T keys} := (finite_reaches namespaces T).to_subtype
  have : IsTrans {keys // Reaches namespaces T keys} fun a b =>
      Relation.TransGen (Calls namespaces) b.1 a.1 := ⟨fun _ _ _ hab hbc => hbc.trans hab⟩
  have : Std.Irrefl fun a b : {keys // Reaches namespaces T keys} =>
      Relation.TransGen (Calls namespaces) b.1 a.1 := ⟨fun a h => hacyclic a.1 a.2 h⟩
  exact Finite.wellFounded_of_trans_of_irrefl _

/-- Scalars that name each other without a cycle have an expansion. -/
theorem exists_expands
    (hstore : ∀ entry ∈ namespaces, ∀ v ∈ entry.2.leaves, WellFormed v)
    (hscalar : ∀ keys, Reaches namespaces T keys →
      ∃ v, Node.lookup namespaces keys = .ok (.scalar v))
    (hacyclic : ∀ keys, Reaches namespaces T keys →
      ¬ Relation.TransGen (Calls namespaces) keys keys) :
    ∃ n u, Expands namespaces T n u := by
  have hall (k : {keys // Reaches namespaces T keys}) :
      ∃ n u, Expands namespaces [.directive k.1] n u := by
    -- the callees of a path come before it, and have their expansions already
    induction k using (wellFounded_calls hacyclic).induction with
    | _ k ih =>
      obtain ⟨keys, start, hstart, hreach⟩ := k
      obtain ⟨v, hlookup⟩ := hscalar keys ⟨start, hstart, hreach⟩
      obtain ⟨entry, hentry, hleaf⟩ := Node.leaves_of_lookup hlookup (v := v) (by simp)
      obtain ⟨inner, hproper, rfl⟩ := hstore entry hentry v hleaf
      obtain ⟨n, u, hinner⟩ := exists_expands_of_named (T := inner) fun callee hcallee =>
        have hcall : Calls namespaces keys callee := ⟨inner, hproper, hlookup, hcallee⟩
        ih ⟨callee, start, hstart, hreach.tail hcall⟩ (.single hcall)
      exact ⟨_, _, .directive hproper hlookup hinner .nil⟩
  exact exists_expands_of_named fun keys hkeys => hall ⟨keys, keys, hkeys, .refl⟩

end Acyclic

end Template

end PromptTags
