import Mathlib.Data.List.Forall2
import PromptTags.Proofs.Expansion.Substitution

/-! What the values of directives depend on. A directive is expanded by its range and by what its path leads
to; its own text and the text it stands in have no part in it. So directives that are alike in these give
the same values on the same source, one after the other. -/
namespace PromptTags

theorem Node.resolve_congr {A B : Keyed Node} {path path' : List Text}
    (h : lookup A path = lookup B path') (s : Source) : resolve A path s = resolve B path' s := by
  simp only [resolve, h]

namespace Directive

/-- Two directives ask for equally many values, and find the same in two dictionaries. -/
def Alike (A B : Keyed Node) (d d' : Directive) : Prop :=
  d.range = d'.range ∧ Node.lookup A d.path = Node.lookup B d'.path

variable {A B : Keyed Node} {maxRepeat : Nat}

theorem values_congr {d d' : Directive} (h : Node.lookup A d.path = Node.lookup B d'.path) (n : Nat)
    (s : Source) :
    (values A d n s).1 = (values B d' n s).1 ∧ (values A d n s).2.1 = (values B d' n s).2.1 := by
  induction n generalizing s with
  | zero => exact ⟨rfl, rfl⟩
  | succ n ih =>
    rw [values, values, Node.resolve_congr h s]
    cases Node.resolve B d'.path s with
    | mk result s' =>
      obtain ⟨htexts, hsource⟩ := ih s'
      cases result with
      | ok value => exact ⟨congrArg (value :: ·) htexts, hsource⟩
      | error e => exact ⟨congrArg ([] :: ·) htexts, hsource⟩

theorem expand_congr {d d' : Directive} (h : Alike A B d d') (s : Source) :
    (d.expand A maxRepeat s).text = (d'.expand B maxRepeat s).text ∧
      (d.expand A maxRepeat s).source = (d'.expand B maxRepeat s).source := by
  obtain ⟨hrange, hlookup⟩ := h
  simp only [expand, hrange]
  -- the count is drawn from the same bounds, and then as many values
  generalize s.between _ _ = drawn
  obtain ⟨n, s'⟩ := drawn
  obtain ⟨htexts, hsource⟩ := values_congr hlookup n s'
  exact ⟨congrArg (Text.join valueSeparator) htexts, hsource⟩

theorem draws_congr {ds ds' : List Directive} (h : List.Forall₂ (Alike A B) ds ds') (s : Source) :
    draws A maxRepeat ds s = draws B maxRepeat ds' s := by
  induction h generalizing s with
  | nil => rfl
  | @cons d d' ds ds' hd _ ih =>
    have hvalue : (d.expand A maxRepeat s).text = (d'.expand B maxRepeat s).text ∧ _ :=
      expand_congr hd s
    simp only [draws, hvalue.1, hvalue.2, ih]

/-- The first directives draw their values without regard to those that follow. -/
theorem draws_take (namespaces : Keyed Node) (ds : List Directive) (k : Nat) (s : Source) :
    (draws namespaces maxRepeat (ds.take k) s).1 = (draws namespaces maxRepeat ds s).1.take k := by
  induction ds generalizing k s with
  | nil => simp [draws]
  | cons d ds ih =>
    cases k with
    | zero => rfl
    | succ k => simp only [List.take_succ_cons, draws, ih]

end Directive

end PromptTags
