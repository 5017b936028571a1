import PromptTags.Proofs.Expansion.Substitution

/-! The barrier divides a prompt. No directive reaches across it, so the directives of the whole are those of
its two sides. A side without directives then has no part in any pass over the other one: every value goes
in on the side of its own directive, whatever it holds, since that directive still stands there. -/
namespace PromptTags

namespace Scan

/-- A text in which nothing is found is sealed as soon as a barrier follows it. -/
theorem sealed_append_barrier {a : Text} (h : Directive.scan a = []) : Sealed (a ++ [barrier]) := by
  induction a with
  | nil => exact sealed_of_notMem (by decide)
  | cons c cs ih =>
    by_cases hc : c = marker
    · subst hc
      cases hafter : Mention.after? cs with
      | some found =>
        rw [Directive.scan_marker_of_some hafter] at h
        cases h
      | none =>
        rw [Directive.scan_marker_of_none hafter] at h
        refine ⟨?_, ih h⟩
        intro _ rest
        change Mention.after? ((cs ++ [barrier]) ++ rest) = none
        rw [List.append_assoc, List.singleton_append, Mention.after?_append_barrier, hafter]
        rfl
    · rw [Directive.scan_cons_of_ne hc] at h
      exact ⟨fun hm => absurd hm hc, ih h⟩

end Scan

/-- The directives on both sides of a barrier are those of the sides. -/
theorem Directive.scan_append_barrier (a b : Text) :
    scan (a ++ barrier :: b) = scan a ++ scan b := by
  -- along the scan of `a`: no step of it looks past the barrier
  induction a using Scan.ofText.induct with
  | case1 => rw [List.nil_append, scan_cons_of_ne (by decide), scan_nil, List.nil_append]
  | case2 cs m rest hafter ih =>
    have hacross := Mention.after?_append_barrier cs b
    rw [hafter, Option.map_some] at hacross
    rw [List.cons_append, scan_marker_of_some hacross, scan_marker_of_some hafter, ih,
      List.cons_append]
  | case3 cs hafter ih =>
    have hacross := Mention.after?_append_barrier cs b
    rw [hafter, Option.map_none] at hacross
    rw [List.cons_append, scan_marker_of_none hacross, scan_marker_of_none hafter, ih]
  | case4 c cs hc ih =>
    rw [List.cons_append, scan_cons_of_ne hc, scan_cons_of_ne hc, ih]

/-- Every mention of a text is replaced within it, so that nothing put after it is reached. -/
theorem Scan.replaceInTurn_append_right {t : Text} {values : List Text}
    (hlen : values.length = (ofText t).found.length) (post : Text) :
    Text.replaceInTurn ((ofText t).raws.zip values) (t ++ post) =
      Text.replaceInTurn ((ofText t).raws.zip values) t ++ post := by
  apply Text.replaceInTurn_append_of_infix
  intro i hi
  have hraw : i < (ofText t).raws.length := by
    rw [List.length_zip] at hi
    omega
  rw [List.getElem_zip]
  exact raw_infix_replaceInTurn hlen i hraw

namespace Expander

variable (e : Expander) (namespaces : Keyed Node)

/-- Behind a barrier a text without directives stays as it is, pass after pass. -/
theorem passes_append_barrier {b : Text} (hb : Directive.scan b = []) (left done : Nat) (t : Text)
    (s : Source) :
    (e.passes namespaces left done (t ++ barrier :: b) s).text =
        (e.passes namespaces left done t s).text ++ barrier :: b ∧
      (e.passes namespaces left done (t ++ barrier :: b) s).source =
        (e.passes namespaces left done t s).source := by
  refine e.passes_within namespaces (· ++ barrier :: b) ?_ ?_ left done t s
  · intro t
    rw [Directive.scan_append_barrier, hb, List.append_nil]
  · intro t s
    rw [substitute_text, substitute_text, Directive.map_raw_scan]
    apply Scan.replaceInTurn_append_right
    rw [Directive.length_draws, Directive.length_scan]

end Expander

/-- The directives of a prompt with a barrier are those of its two sides, and an expansion of it in which one
side has none is the expansion of the other side alone, in its place. -/
theorem barrier_divides_expansion (a b : Text) :
    Directive.scan (a ++ barrier :: b) = Directive.scan a ++ Directive.scan b ∧
    ∀ (e : Expander) (namespaces : Keyed Node) (s : Source),
      (Directive.scan b = [] →
        (e.run namespaces (a ++ barrier :: b) s).text =
            (e.run namespaces a s).text ++ barrier :: b ∧
          (e.run namespaces (a ++ barrier :: b) s).source = (e.run namespaces a s).source) ∧
      (Directive.scan a = [] →
        (e.run namespaces (a ++ barrier :: b) s).text =
            a ++ barrier :: (e.run namespaces b s).text ∧
          (e.run namespaces (a ++ barrier :: b) s).source = (e.run namespaces b s).source) := by
  refine ⟨Directive.scan_append_barrier a b, fun e namespaces s => ⟨?_, ?_⟩⟩
  · intro hb
    exact e.passes_append_barrier namespaces hb e.maxPasses 0 a s
  · intro ha
    have h := e.passes_append namespaces (Scan.sealed_append_barrier ha) e.maxPasses 0 b s
    rw [List.append_assoc, List.append_assoc] at h
    exact h

/-- The values bring in markers and a barrier, and the text on the other side holds a marker and a part of
a directive. -/
theorem barrier_divides_expansion_marked_values :
    let namespaces : Keyed Node := [(Text.lit "a", .scalar (Text.lit "@b@>@")),
      (Text.lit "b", .list [Text.lit "x@", Text.lit "y>"])]
    let e : Expander := ⟨3, 100⟩
    let s := Source.cycle [5]
    Directive.scan (Text.lit "@a") = [] ∧
    (e.run namespaces (Text.lit "@a@ @b@" ++ barrier :: Text.lit "@a") s).text =
      (e.run namespaces (Text.lit "@a@ @b@") s).text ++ barrier :: Text.lit "@a" ∧
    (e.run namespaces (Text.lit "@a" ++ barrier :: Text.lit "@a@ @b@") s).text =
      Text.lit "@a" ++ barrier :: (e.run namespaces (Text.lit "@a@ @b@") s).text ∧
    (e.run namespaces (Text.lit "@a@ @b@") s).text = Text.lit "x@>b@" := by
  intro namespaces e s
  have hscan : Directive.scan (Text.lit "@a") = [] := by decide +kernel
  exact ⟨hscan, (((barrier_divides_expansion _ _).2 e namespaces s).1 hscan).1,
    (((barrier_divides_expansion _ _).2 e namespaces s).2 hscan).1, by decide +kernel⟩

end PromptTags
