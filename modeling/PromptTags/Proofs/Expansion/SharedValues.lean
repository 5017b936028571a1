import PromptTags.Proofs.Expansion.Draws
import PromptTags.Proofs.Expansion.OnePass

/-! Prompts that share their randomness. Over a dictionary without markers a directive's value depends on
its own place among the directives only, so two prompts that begin with the same directives, however they
are spelled and whatever stands between them, show the same values in the same places. -/
namespace PromptTags

/-- The gaps and values of a scan up to the last of the values. -/
def Scan.front (s : Scan) (values : List Text) : Text :=
  (List.zipWith (fun entry value => entry.1 ++ value) s.found values).flatten

theorem Scan.front_take_prefix_fill (s : Scan) (values : List Text) (k : Nat) :
    s.front (values.take k) <+: s.fill values := by
  obtain ⟨found, rest⟩ := s
  induction found generalizing values k with
  | nil => simp [front]
  | cons entry more ih =>
    obtain ⟨g, m⟩ := entry
    cases values with
    | nil => simp [front]
    | cons v vs =>
      cases k with
      | zero => simp [front]
      | succ k =>
        rw [fill_found_cons, ← List.append_assoc]
        exact List.prefix_append_right_inj (g ++ v) |>.2 (ih vs k)

theorem Directive.scan_fill {t : Text} {values : List Text} (hv : ∀ v ∈ values, Scan.Sealed v)
    (hlen : values.length = (Scan.ofText t).found.length) :
    scan ((Scan.ofText t).fill values) = [] := by
  rw [scan, Scan.ofText_fill hv hlen]
  rfl

namespace Expander

variable (e : Expander) {namespaces : Keyed Node}

theorem run_text_eq_fill (hleaves : ∀ entry ∈ namespaces, ∀ v ∈ entry.2.leaves, marker ∉ v)
    (he : 1 ≤ e.maxPasses) (prompt : Text) (s : Source) :
    (e.run namespaces prompt s).text = (Scan.ofText prompt).fill
      (Directive.draws namespaces e.maxRepeat (Directive.scan prompt) s).1 := by
  generalize hdrawn : (Directive.draws namespaces e.maxRepeat (Directive.scan prompt) s).1 = values
  have hsealed : ∀ v ∈ values, Scan.Sealed v := by
    intro v hv
    rw [← hdrawn] at hv
    exact Scan.sealed_of_notMem (Directive.marker_notMem_draws hleaves _ s v hv)
  have hlen : values.length = (Scan.ofText prompt).found.length := by
    rw [← hdrawn, Directive.length_draws, Directive.length_scan]
  have hpass : (e.substitute namespaces (Directive.scan prompt) prompt s).text =
      (Scan.ofText prompt).fill values := by
    rw [e.substitute_text, Directive.map_raw_scan, hdrawn]
    exact Scan.replaceInTurn_eq_fill hsealed hlen
  -- no directive is left in the text after the first pass
  have hfinal : Directive.scan (e.substitute namespaces (Directive.scan prompt) prompt s).text =
      [] := by
    rw [hpass, Directive.scan_fill hsealed hlen]
  exact (e.passes_of_pass_final namespaces hfinal he 0).1.trans hpass

/-- What the first directives of a prompt expand to stands at their places, behind the gaps before them. -/
theorem front_prefix_run (hleaves : ∀ entry ∈ namespaces, ∀ v ∈ entry.2.leaves, marker ∉ v)
    (he : 1 ≤ e.maxPasses) (prompt : Text) (k : Nat) (s : Source) :
    (Scan.ofText prompt).front
        (Directive.draws namespaces e.maxRepeat ((Directive.scan prompt).take k) s).1 <+:
      (e.run namespaces prompt s).text := by
  rw [e.run_text_eq_fill hleaves he, Directive.draws_take]
  exact Scan.front_take_prefix_fill _ _ _

end Expander

/-- Two prompts whose first `k` directives agree in range and path, expanded with one seed, show the same
`k` values, each prompt between its own gaps. -/
theorem equal_directives_share_values (namespaces : Keyed Node)
    (hleaves : ∀ entry ∈ namespaces, ∀ v ∈ entry.2.leaves, marker ∉ v) (e : Expander)
    (he : 1 ≤ e.maxPasses) (seed : UInt64) (p q : Text) (k : Nat)
    (hp : k ≤ (Directive.scan p).length) (hq : k ≤ (Directive.scan q).length)
    (hagree : ∀ i (hi : i < k), (Directive.scan p)[i].range = (Directive.scan q)[i].range ∧
      (Directive.scan p)[i].path = (Directive.scan q)[i].path) :
    ∃ values : List Text, values.length = k ∧
      (Scan.ofText p).front values <+: (e.expand namespaces p seed).text ∧
      (Scan.ofText q).front values <+: (e.expand namespaces q seed).text := by
  have halike : List.Forall₂ (Directive.Alike namespaces namespaces)
      ((Directive.scan p).take k) ((Directive.scan q).take k) := by
    rw [List.forall₂_iff_get]
    refine ⟨by simp only [List.length_take]; omega, ?_⟩
    intro i hi _
    obtain ⟨hrange, hpath⟩ := hagree i (by rw [List.length_take] at hi; omega)
    exact ⟨by simpa using hrange, by simp [hpath]⟩
  refine ⟨(Directive.draws namespaces e.maxRepeat ((Directive.scan p).take k) (.ofSeed seed)).1,
    ?_, ?_, ?_⟩
  · rw [Directive.length_draws, List.length_take, Nat.min_eq_left hp]
  · exact e.front_prefix_run hleaves he p k (.ofSeed seed)
  · rw [Directive.draws_congr halike]
    exact e.front_prefix_run hleaves he q k (.ofSeed seed)

/-- The first two directives agree although one is spelled with its count; the third do not, and one of the
prompts has a stray marker. -/
theorem equal_directives_share_values_respelled :
    let namespaces : Keyed Node := [(Text.lit "c", .list [Text.lit "a>", Text.lit "b"])]
    let e : Expander := ⟨1, 100⟩
    let p := Text.lit "x @c@ y @0-3$$c@ z @c@"
    let q := Text.lit "@1$$c@ @>@3-0$$c@@2$$c@@"
    (∀ entry ∈ namespaces, ∀ v ∈ entry.2.leaves, marker ∉ v) ∧ 1 ≤ e.maxPasses ∧
    2 ≤ (Directive.scan p).length ∧ 2 ≤ (Directive.scan q).length ∧
    ∃ values : List Text, values.length = 2 ∧
      (Scan.ofText p).front values <+: (e.expand namespaces p 7).text ∧
      (Scan.ofText q).front values <+: (e.expand namespaces q 7).text := by
  intro namespaces e p q
  have hleaves : ∀ entry ∈ namespaces, ∀ v ∈ entry.2.leaves, marker ∉ v := by
    simp only [namespaces, List.mem_singleton, forall_eq, Node.leaves_list]
    decide
  have hp : 2 ≤ (Directive.scan p).length := by decide +kernel
  have hq : 2 ≤ (Directive.scan q).length := by decide +kernel
  refine ⟨hleaves, Nat.le_refl 1, hp, hq, ?_⟩
  apply equal_directives_share_values namespaces hleaves e (Nat.le_refl 1) 7 p q 2 hp hq
  decide +kernel +revert

end PromptTags
