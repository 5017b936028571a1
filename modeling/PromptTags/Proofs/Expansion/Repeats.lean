import Mathlib.Logic.Function.Iterate
import PromptTags.Expansion.Expander
import PromptTags.Proofs.Random.Draw

/-! Repeated directives. How many values a directive has is the first thing that is drawn for it, within
bounds that are clamped so that there is always a number between them. Each value is then resolved on the
source that the one before has left, and where that fails only this one value is missing. -/
namespace PromptTags

namespace Source

theorem between_bounds {lo hi : Nat} (h : lo ≤ hi) (s : Source) :
    lo ≤ (s.between lo hi).1 ∧ (s.between lo hi).1 ≤ hi := by
  have hlt : (s.below (hi - lo + 1)).1 < hi - lo + 1 := below_lt (Nat.zero_lt_succ _) s
  change lo ≤ lo + (s.below (hi - lo + 1)).1 ∧ lo + (s.below (hi - lo + 1)).1 ≤ hi
  omega

/-- There are words that make a draw between two bounds give any number between them. -/
theorem exists_between {lo hi c : Nat} (hlo : lo ≤ c) (hhi : c ≤ hi) (hbound : hi < wordCount) :
    ∃ s : Source, (s.between lo hi).1 = c := by
  have hwidth : hi - lo + 1 ≤ wordCount := by omega
  have hc : c - lo < hi - lo + 1 := by omega
  obtain ⟨ws, hws⟩ := exists_words_below hc hwidth
  have hbegins : (cycle ws).Begins (ws ++ []) := by
    rw [List.append_nil]
    exact begins_cycle ws
  obtain ⟨s', hbelow, -⟩ := hws [] (cycle ws) hbegins
  refine ⟨cycle ws, ?_⟩
  rw [between, hbelow]
  exact Nat.add_sub_of_le hlo

end Source

namespace Directive

variable (namespaces : Keyed Node) (d : Directive)

/-- The source that is left when a directive has been resolved once. -/
def afterOne (s : Source) : Source := (Node.resolve namespaces d.path s).2

theorem values_succ (n : Nat) (s : Source) :
    (values namespaces d (n + 1) s).1 = (Node.resolve namespaces d.path s).1.toOption.getD [] ::
        (values namespaces d n (d.afterOne namespaces s)).1 ∧
      (values namespaces d (n + 1) s).2.1 =
        (values namespaces d n (d.afterOne namespaces s)).2.1 := by
  rw [values, afterOne]
  -- the loop goes on from the same source whether there is a value or not
  cases Node.resolve namespaces d.path s with
  | mk result s' => cases result <;> exact ⟨rfl, rfl⟩

theorem values_source (n : Nat) (s : Source) :
    (values namespaces d n s).2.1 = (d.afterOne namespaces)^[n] s := by
  induction n generalizing s with
  | zero => rfl
  | succ n ih => rw [(values_succ namespaces d n s).2, ih, Function.iterate_succ_apply]

theorem length_values (n : Nat) (s : Source) : (values namespaces d n s).1.length = n := by
  induction n generalizing s with
  | zero => rfl
  | succ n ih => rw [(values_succ namespaces d n s).1, List.length_cons, ih]

theorem getElem_values {n i : Nat} {s : Source} (h : i < (values namespaces d n s).1.length) :
    (values namespaces d n s).1[i] =
      (Node.resolve namespaces d.path ((d.afterOne namespaces)^[i] s)).1.toOption.getD [] := by
  induction n generalizing i s with
  | zero => exact absurd h (Nat.not_lt_zero i)
  | succ n ih =>
    simp only [(values_succ namespaces d n s).1]
    cases i with
    | zero => rfl
    | succ i =>
      rw [List.getElem_cons_succ, Function.iterate_succ_apply]
      exact ih _

/-- A ceiling that is not below the greatest count asked for has no part in an expansion. -/
theorem expand_of_max_le {maxRepeat : Nat} (h : d.range.max ≤ maxRepeat) (s : Source) :
    d.expand namespaces maxRepeat s = d.expand namespaces d.range.max s := by
  have hmin : Nat.min d.range.max maxRepeat = Nat.min d.range.max d.range.max :=
    (Nat.min_eq_left h).trans (Nat.min_self _).symm
  simp only [expand, hmin, Nat.not_lt.2 h, Nat.lt_irrefl, if_false]

end Directive

/-- The count of a directive is drawn between its clamped bounds, of which the lower is never the greater one,
and is any number between them on some source. There are as many values as the count says, and each stands
for one resolution on the source that the resolutions before it have left, by the empty text if that fails.
Ceilings that no count reaches are all the same. -/
theorem expand_draws_between_clamped_bounds (namespaces : Keyed Node) (d : Directive)
    (maxRepeat : Nat) :
    let hi := Nat.min d.range.max maxRepeat
    let lo := Nat.min d.range.min hi
    lo ≤ hi ∧
    (∀ s : Source,
      let count := (s.between lo hi).1
      let start := (s.between lo hi).2
      let after := fun s => (Node.resolve namespaces d.path s).2
      let values := (Directive.values namespaces d count start).1
      (lo ≤ count ∧ count ≤ hi) ∧
      (d.expand namespaces maxRepeat s).text = Text.join (Text.lit ", ") values ∧
      (d.expand namespaces maxRepeat s).source = after^[count] start ∧
      values.length = count ∧
      ∀ i (h : i < values.length),
        values[i] = (Node.resolve namespaces d.path (after^[i] start)).1.toOption.getD []) ∧
    (hi < RepeatRange.countBound → ∀ c, lo ≤ c → c ≤ hi → ∃ s : Source, (s.between lo hi).1 = c) ∧
    ∀ r r', d.range.max ≤ r → d.range.max ≤ r' → ∀ s,
      (d.expand namespaces r s).text = (d.expand namespaces r' s).text ∧
        (d.expand namespaces r s).source = (d.expand namespaces r' s).source := by
  intro hi lo
  have hle : lo ≤ hi := Nat.min_le_right d.range.min hi
  refine ⟨hle, ?_, ?_, ?_⟩
  · intro s count start after values
    refine ⟨Source.between_bounds hle s, rfl, ?_, ?_, ?_⟩
    · exact d.values_source namespaces count start
    · exact d.length_values namespaces count start
    · intro i h
      exact d.getElem_values namespaces h
  · intro hbound c hlo hhi
    exact Source.exists_between hlo hhi hbound
  · intro r r' hr hr' s
    rw [d.expand_of_max_le namespaces hr, d.expand_of_max_le namespaces hr']
    exact ⟨rfl, rfl⟩

/-- A range that was made with its bounds the wrong way around, over a mapping in which an empty list stands
beside a value: the first of the two resolutions fails. -/
theorem expand_draws_between_clamped_bounds_inverted :
    let namespaces : Keyed Node :=
      [(Text.lit "x", .map [(Text.lit "a", .list []), (Text.lit "b", .list [Text.lit "v"])])]
    let d : Directive := ⟨Text.lit "@x@", ⟨7, 4294967295⟩, [Text.lit "x"]⟩
    let d' : Directive := ⟨Text.lit "@x@", ⟨9, 2⟩, [Text.lit "x"]⟩
    let s := Source.cycle [1, 2, 4000000000]
    Nat.min d.range.max 8 < RepeatRange.countBound ∧ (∃ s : Source, (s.between 7 8).1 = 8) ∧
    d'.range.max ≤ 2 ∧ d'.range.max ≤ 100 ∧
    (d'.expand namespaces 2 s).text = (d'.expand namespaces 100 s).text ∧
    (d'.expand namespaces 2 s).text = Text.lit ", v" := by
  intro namespaces d d' s
  have hbound : Nat.min d.range.max 8 < RepeatRange.countBound := by decide
  obtain ⟨-, -, hcount, -⟩ := expand_draws_between_clamped_bounds namespaces d 8
  obtain ⟨-, -, -, hceiling⟩ := expand_draws_between_clamped_bounds namespaces d' 2
  exact ⟨hbound, hcount hbound 8 (by decide) (by decide), by decide, by decide,
    (hceiling 2 100 (by decide) (by decide) s).1, by decide +kernel⟩

end PromptTags
