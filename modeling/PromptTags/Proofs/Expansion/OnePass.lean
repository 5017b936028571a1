import PromptTags.Proofs.Expansion.Substitution
import PromptTags.Proofs.Tag.Leaves

/-! Expansion over a dictionary without markers. No value brings in a new directive there, so the first
pass puts every value at the place of its own directive, and there is nothing left for a second pass. -/
namespace PromptTags

namespace Directive

variable {namespaces : Keyed Node} {maxRepeat : Nat}

theorem marker_notMem_values (hleaves : ∀ entry ∈ namespaces, ∀ v ∈ entry.2.leaves, marker ∉ v)
    (d : Directive) (n : Nat) (s : Source) :
    ∀ v ∈ (values namespaces d n s).1, marker ∉ v := by
  induction n generalizing s with
  | zero => simp [values]
  | succ n ih =>
    rw [values]
    split
    · next value s' hr =>
      obtain ⟨entry, hentry, hvalue⟩ := Node.mem_leaves_of_resolve hr
      simpa using ⟨hleaves entry hentry value hvalue, ih s'⟩
    · next s' _ => simpa using ih s'

theorem marker_notMem_expand (hleaves : ∀ entry ∈ namespaces, ∀ v ∈ entry.2.leaves, marker ∉ v)
    (d : Directive) (s : Source) : marker ∉ (d.expand namespaces maxRepeat s).text := by
  intro h
  rcases Text.mem_join h with h | ⟨piece, hpiece, h⟩
  · exact absurd h (by decide)
  · exact marker_notMem_values hleaves _ _ _ piece hpiece h

theorem marker_notMem_draws (hleaves : ∀ entry ∈ namespaces, ∀ v ∈ entry.2.leaves, marker ∉ v)
    (ds : List Directive) (s : Source) :
    ∀ v ∈ (draws namespaces maxRepeat ds s).1, marker ∉ v := by
  induction ds generalizing s with
  | nil => simp [draws]
  | cons d ds ih =>
    intro v hv
    rcases List.mem_cons.1 hv with rfl | hv
    · exact marker_notMem_expand hleaves d s
    · exact ih _ v hv

end Directive

/-- Sealed values go to the places of their own mentions. -/
theorem Scan.replaceInTurn_eq_fill {t : Text} {values : List Text} (hv : ∀ v ∈ values, Sealed v)
    (hlen : values.length = (ofText t).found.length) :
    Text.replaceInTurn ((ofText t).raws.zip values) t = (ofText t).fill values := by
  induction t using ind generalizing values with
  | last rest h => simp [h]
  | step g m t hg hread ih =>
    have hm := (Mention.body_of_after? hread).1
    rw [ofText_gap_mention hg hread] at hlen ⊢
    cases values with
    | nil => simp at hlen
    | cons v vs =>
      -- gap and value are sealed together, so that the other values go in behind them
      have hgv : Sealed (g ++ v) := sealed_append hg (hv v List.mem_cons_self)
      have hrest := ih (fun w hw => hv w (List.mem_cons_of_mem _ hw)) (by simpa using hlen)
      have hfirst : Text.replaceFirst m.raw v (g ++ (m.raw ++ t)) = (g ++ v) ++ t := by
        rw [replaceFirst_append hg hm, Text.replaceFirst_append_self, List.append_assoc]
      calc Text.replaceInTurn (m.raw :: (ofText t).raws |>.zip (v :: vs)) (g ++ (m.raw ++ t))
          = Text.replaceInTurn ((ofText t).raws.zip vs)
              (Text.replaceFirst m.raw v (g ++ (m.raw ++ t))) := rfl
        _ = (g ++ v) ++ (ofText t).fill vs := by rw [hfirst, replaceInTurn_append hgv, hrest]
        _ = fill ⟨(g, m) :: (ofText t).found, (ofText t).rest⟩ (v :: vs) := by
          rw [fill_found_cons, List.append_assoc]

namespace Expander

variable (e : Expander) (namespaces : Keyed Node)

theorem passes_of_pass_final {t : Text} {s : Source}
    (h : Directive.scan (e.substitute namespaces (Directive.scan t) t s).text = [])
    {left : Nat} (hleft : 1 ≤ left) (done : Nat) :
    (e.passes namespaces left done t s).text =
        (e.substitute namespaces (Directive.scan t) t s).text ∧
      (e.passes namespaces left done t s).source =
        (e.substitute namespaces (Directive.scan t) t s).source := by
  obtain ⟨left, rfl⟩ := Nat.exists_eq_add_of_le' hleft
  by_cases ht : Directive.scan t = []
  · rw [ht]
    exact e.passes_of_scan_nil namespaces ht _ _ _
  · obtain ⟨htext, hsource⟩ := e.passes_succ namespaces ht left done s
    obtain ⟨htext', hsource'⟩ := e.passes_of_scan_nil namespaces h left (done + 1)
      (e.substitute namespaces (Directive.scan t) t s).source
    exact ⟨htext.trans htext', hsource.trans hsource'⟩

end Expander

/-- Over a dictionary whose leaves hold no marker, expanding a prompt is to put the values drawn for
its directives in their places, all at once. -/
theorem run_eq_simultaneous_substitution (namespaces : Keyed Node)
    (hleaves : ∀ entry ∈ namespaces, ∀ v ∈ entry.2.leaves, marker ∉ v) (prompt : Text)
    (e : Expander) (he : 1 ≤ e.maxPasses) (s : Source) :
    let cut := Scan.ofText prompt
    let directives := Directive.scan prompt
    let drawn := Directive.draws namespaces e.maxRepeat directives s
    cut.fill (directives.map Directive.raw) = prompt ∧
    drawn.1.length = directives.length ∧
    (e.run namespaces prompt s).text = cut.fill drawn.1 ∧
    (e.run namespaces prompt s).source = drawn.2 ∧
    Directive.scan (cut.fill drawn.1) = [] ∧
    (∀ maxPasses, 1 ≤ maxPasses →
      (Expander.run ⟨maxPasses, e.maxRepeat⟩ namespaces prompt s).text = cut.fill drawn.1) ∧
    ∀ (e' : Expander) (s' : Source),
      (e'.run namespaces (cut.fill drawn.1) s').text = cut.fill drawn.1 := by
  intro cut directives drawn
  have hlen : drawn.1.length = directives.length := Directive.length_draws _ _ _ _
  have hlen' : drawn.1.length = cut.found.length := by
    rw [hlen]
    exact Directive.length_scan prompt
  have hsealed : ∀ v ∈ drawn.1, Scan.Sealed v := fun v hv =>
    Scan.sealed_of_notMem (Directive.marker_notMem_draws hleaves directives s v hv)
  have hscan : Directive.scan (cut.fill drawn.1) = [] := by
    simp [Directive.scan, Scan.ofText_fill hsealed hlen', cut, Scan.mentions]
  have hpass (e' : Expander) (hr : e'.maxRepeat = e.maxRepeat) :
      (e'.substitute namespaces directives prompt s).text = cut.fill drawn.1 := by
    rw [e'.substitute_text, Directive.map_raw_scan, hr]
    exact Scan.replaceInTurn_eq_fill hsealed hlen'
  have hrun (e' : Expander) (hr : e'.maxRepeat = e.maxRepeat) (hp : 1 ≤ e'.maxPasses) :
      (e'.run namespaces prompt s).text = cut.fill drawn.1 ∧
        (e'.run namespaces prompt s).source = drawn.2 := by
    have hfinal : Directive.scan (e'.substitute namespaces directives prompt s).text = [] := by
      rw [hpass e' hr, hscan]
    obtain ⟨htext, hsource⟩ := e'.passes_of_pass_final namespaces hfinal hp 0
    refine ⟨htext.trans (hpass e' hr), hsource.trans ?_⟩
    rw [e'.substitute_source, hr]
  refine ⟨?_, hlen, (hrun e rfl he).1, (hrun e rfl he).2, hscan, ?_, ?_⟩
  · rw [Directive.map_raw_scan]
    exact Scan.fill_raw prompt
  · intro maxPasses hp
    exact (hrun ⟨maxPasses, e.maxRepeat⟩ rfl hp).1
  · intro e' s'
    exact (e'.passes_of_scan_nil namespaces hscan _ _ _).1

/-- Equal directives, a stray marker behind a barrier, and two markers at the end. -/
theorem run_eq_simultaneous_substitution_duplicates :
    let namespaces : Keyed Node := [(Text.lit "c", .list [Text.lit "a>", Text.lit "b"])]
    let prompt := Text.lit "@c@ x@>y @2$$c@@c@@@"
    (∀ entry ∈ namespaces, ∀ v ∈ entry.2.leaves, marker ∉ v) ∧
    1 ≤ (Expander.mk 1 100).maxPasses ∧
    (Expander.run ⟨1, 100⟩ namespaces prompt (.cycle [16, 4294901760, 7])).text =
      Text.lit "b x@>y a>, ba>@@" :=
  have hleaves : ∀ entry ∈ ([(Text.lit "c", .list [Text.lit "a>", Text.lit "b"])] : Keyed Node),
      ∀ v ∈ entry.2.leaves, marker ∉ v := by
    simp only [List.mem_singleton, forall_eq, Node.leaves_list]
    decide
  ⟨hleaves, Nat.le_refl 1,
    (run_eq_simultaneous_substitution _ hleaves (Text.lit "@c@ x@>y @2$$c@@c@@@") ⟨1, 100⟩
      (Nat.le_refl 1) (.cycle [16, 4294901760, 7])).2.2.1.trans (by decide +kernel)⟩

end PromptTags
