import Mathlib.Algebra.GroupWithZero.Nat
import PromptTags.Expansion.Expander
import PromptTags.Proofs.Directive.Gap
import PromptTags.Proofs.Text.Parts

/-! One pass over a text. The directives are found before the first value is put in, so each value may
disturb what stands to its left but never a directive that still waits: an occurrence that starts before
a waiting directive ends before the end of that directive. So all of them are replaced, and what stands
before the first and after the last of them is kept. -/
namespace PromptTags

namespace Scan

/-- A mention is never replaced within a sealed text. -/
theorem replaceFirst_append {g : Text} (hg : Sealed g) {m : Mention} (hm : Mention.IsBody m.body)
    (v t : Text) :
    Text.replaceFirst m.raw v (g ++ t) = g ++ Text.replaceFirst m.raw v t := by
  induction g with
  | nil => rfl
  | cons c cs ih =>
    -- an occurrence here would open a mention within the gap
    have hp : ¬ m.raw.isPrefixOf (c :: (cs ++ t)) = true := by
      rw [List.isPrefixOf_iff_prefix]
      rintro ⟨z, hz⟩
      rw [Mention.raw_eq, List.cons_append] at hz
      obtain ⟨hc, hcs⟩ := List.cons.inj hz
      have hnone := hg.1 hc.symm t
      have hsome := Mention.after?_isSome hm z
      rw [← hcs, show m.body ++ [marker] ++ z = m.body ++ marker :: z by simp] at hnone
      rw [hnone] at hsome
      exact absurd hsome (by simp)
    rw [List.cons_append, Text.replaceFirst, if_neg hp, ih hg.2]
    rfl

theorem replaceInTurn_append {g : Text} (hg : Sealed g) {t : Text} (values : List Text) (u : Text) :
    Text.replaceInTurn ((ofText t).raws.zip values) (g ++ u) =
      g ++ Text.replaceInTurn ((ofText t).raws.zip values) u := by
  induction t using ind generalizing values u with
  | last rest h => simp [h]
  | step gap m t' hgap hread ih =>
    have hbody := (Mention.body_of_after? hread).1
    rw [ofText_gap_mention hgap hread]
    cases values with
    | nil => simp
    | cons v vs =>
      rw [raws_cons, List.zip_cons_cons, Text.replaceInTurn_cons, Text.replaceInTurn_cons,
        replaceFirst_append hg hbody, ih vs _]

/-- After `i` replacements the text ends with what the scan had left after `i` mentions, and
characters have been taken and given as the replaced mentions and their values have them. -/
theorem replaceInTurn_take {t : Text} {s : Scan} {values : List Text} (hs : ofText t = s)
    (hlen : values.length = s.found.length) (pre : Text) {i : Nat} (hi : i ≤ s.found.length) :
    ∃ pre' t', Text.replaceInTurn ((s.raws.zip values).take i) (pre ++ t) = pre' ++ t' ∧
      ofText t' = ⟨s.found.drop i, s.rest⟩ ∧
      ∀ c, (pre' ++ t').count c + ((s.raws.take i).map (List.count c)).sum =
        (pre ++ t).count c + ((values.take i).map (List.count c)).sum := by
  obtain ⟨found, rest⟩ := s
  -- `t` is what no replacement has reached yet, and `pre` all that stands before it by now
  induction found generalizing t values pre i with
  | nil =>
    obtain rfl : i = 0 := by simpa using hi
    exact ⟨pre, t, rfl, hs, by simp⟩
  | cons entry more ih =>
    obtain ⟨g, m⟩ := entry
    obtain ⟨t₁, rfl, ht₁, -, -⟩ := split_of_ofText hs
    cases i with
    | zero => exact ⟨pre, _, rfl, hs, by simp⟩
    | succ i =>
      cases values with
      | nil => simp at hlen
      | cons v vs =>
        obtain ⟨a, b, hab, hr⟩ := Text.replaceFirst_present m.raw v (pre ++ g) t₁
        have hlen' : vs.length = (Scan.mk more rest).found.length := by simpa using hlen
        have hi' : i ≤ (Scan.mk more rest).found.length := by simpa using hi
        obtain ⟨pre', t', h₁, h₂, h₃⟩ := ih (a ++ (v ++ b)) ht₁ hlen' hi'
        refine ⟨pre', t', ?_, h₂, ?_⟩
        · rw [raws_cons, List.zip_cons_cons, List.take_succ_cons, Text.replaceInTurn_cons,
            ← List.append_assoc, hr, ← h₁]
          simp
        · intro c
          have hcount := congrArg (List.count c) hab
          have hrest := h₃ c
          simp only [List.count_append, raws_cons, List.take_succ_cons, List.map_cons,
            List.sum_cons] at hcount hrest ⊢
          omega

theorem raw_infix_replaceInTurn {t : Text} {values : List Text}
    (hlen : values.length = (ofText t).found.length) (i : Nat) (hi : i < (ofText t).raws.length) :
    (ofText t).raws[i] <:+: Text.replaceInTurn (((ofText t).raws.zip values).take i) t := by
  have hf : i < (ofText t).found.length := length_raws (ofText t) ▸ hi
  obtain ⟨pre, t', h₁, h₂, -⟩ := replaceInTurn_take rfl hlen [] (Nat.le_of_lt hf)
  rw [List.drop_eq_getElem_cons hf] at h₂
  obtain ⟨t'', rfl, -⟩ := split_of_ofText h₂
  rw [List.nil_append] at h₁
  rw [h₁]
  refine ⟨pre ++ (ofText t).found[i].1, t'', ?_⟩
  simp [raws, mentions]

theorem count_replaceInTurn {t : Text} {values : List Text}
    (hlen : values.length = (ofText t).found.length) (c : Char) :
    (Text.replaceInTurn ((ofText t).raws.zip values) t).count c +
        ((ofText t).raws.map (List.count c)).sum =
      t.count c + (values.map (List.count c)).sum := by
  obtain ⟨pre, t', h₁, -, h₃⟩ := replaceInTurn_take rfl hlen [] (Nat.le_refl _)
  have hc := h₃ c
  rw [← h₁, List.nil_append, List.take_of_length_le (by simp [length_raws, hlen]),
    List.take_of_length_le (by simp [length_raws]), List.take_of_length_le (by omega)] at hc
  exact hc

theorem rest_suffix_replaceInTurn {t : Text} {values : List Text}
    (hlen : values.length = (ofText t).found.length) :
    (ofText t).rest <:+ Text.replaceInTurn ((ofText t).raws.zip values) t := by
  obtain ⟨pre, t', h₁, h₂, -⟩ := replaceInTurn_take rfl hlen [] (Nat.le_refl _)
  rw [List.drop_length] at h₂
  rw [List.nil_append, List.take_of_length_le (by simp [length_raws, hlen])] at h₁
  rw [h₁, eq_rest_of_ofText h₂]
  exact List.suffix_append pre _

theorem head_prefix_replaceInTurn (t : Text) (values : List Text) :
    (ofText t).head <+: Text.replaceInTurn ((ofText t).raws.zip values) t := by
  induction t using ind with
  | last rest h => exact ⟨[], by simp [head, h]⟩
  | step g m t' hg hread _ =>
    rw [replaceInTurn_append hg values (m.raw ++ t'), ofText_gap_mention hg hread]
    exact List.prefix_append g _

end Scan

namespace Directive

/-- The texts that directives expand to, one after the other on one source. -/
def draws (namespaces : Keyed Node) (maxRepeat : Nat) :
    List Directive → Source → List Text × Source
  | [], s => ([], s)
  | d :: ds, s =>
    let value := d.expand namespaces maxRepeat s
    let more := draws namespaces maxRepeat ds value.source
    (value.text :: more.1, more.2)

theorem length_draws (namespaces : Keyed Node) (maxRepeat : Nat) (ds : List Directive)
    (s : Source) : (draws namespaces maxRepeat ds s).1.length = ds.length := by
  induction ds generalizing s with
  | nil => rfl
  | cons d ds ih => simp [draws, ih]

end Directive

namespace Expander

variable (e : Expander) (namespaces : Keyed Node)

/-- A pass draws its values without regard to the text, and puts them in in turn. -/
theorem substitute_text (ds : List Directive) (t : Text) (s : Source) :
    (e.substitute namespaces ds t s).text =
      Text.replaceInTurn ((ds.map Directive.raw).zip
        (Directive.draws namespaces e.maxRepeat ds s).1) t := by
  induction ds generalizing t s with
  | nil => rfl
  | cons d ds ih => simp [substitute, Directive.draws, ih]

theorem substitute_source (ds : List Directive) (t : Text) (s : Source) :
    (e.substitute namespaces ds t s).source =
      (Directive.draws namespaces e.maxRepeat ds s).2 := by
  induction ds generalizing t s with
  | nil => rfl
  | cons d ds ih => simp [substitute, Directive.draws, ih]

theorem passes_of_scan_nil {t : Text} (h : Directive.scan t = []) (left done : Nat) (s : Source) :
    (e.passes namespaces left done t s).text = t ∧
      (e.passes namespaces left done t s).source = s := by
  cases left with
  | zero => exact ⟨rfl, rfl⟩
  | succ left => simp [passes, h]

theorem passes_succ {t : Text} (h : Directive.scan t ≠ []) (left done : Nat) (s : Source) :
    let pass := e.substitute namespaces (Directive.scan t) t s
    let after := e.passes namespaces left (done + 1) pass.text pass.source
    (e.passes namespaces (left + 1) done t s).text = after.text ∧
      (e.passes namespaces (left + 1) done t s).source = after.source := by
  cases hd : Directive.scan t with
  | nil => exact absurd hd h
  | cons d ds => simp [passes, hd]

/-- Surroundings in which no directive is found, and which no pass disturbs, are none to the whole run. -/
theorem passes_within (around : Text → Text) (hscan : ∀ t, Directive.scan (around t) = Directive.scan t)
    (hpass : ∀ t s, (e.substitute namespaces (Directive.scan t) (around t) s).text =
      around (e.substitute namespaces (Directive.scan t) t s).text)
    (left done : Nat) (t : Text) (s : Source) :
    (e.passes namespaces left done (around t) s).text =
        around (e.passes namespaces left done t s).text ∧
      (e.passes namespaces left done (around t) s).source =
        (e.passes namespaces left done t s).source := by
  induction left generalizing done t s with
  | zero => exact ⟨rfl, rfl⟩
  | succ left ih =>
    by_cases h : Directive.scan t = []
    · obtain ⟨htext, hsource⟩ :=
        e.passes_of_scan_nil namespaces ((hscan t).trans h) (left + 1) done s
      obtain ⟨htext', hsource'⟩ := e.passes_of_scan_nil namespaces h (left + 1) done s
      rw [htext, hsource, htext', hsource']
      exact ⟨rfl, rfl⟩
    · obtain ⟨htext, hsource⟩ := e.passes_succ namespaces (hscan t ▸ h) left done s
      obtain ⟨htext', hsource'⟩ := e.passes_succ namespaces h left done s
      rw [htext, hsource, htext', hsource', hscan, hpass, e.substitute_source, e.substitute_source]
      exact ih _ _ _

/-- A sealed text stays in front of all that the passes make of what follows it, and has no part in that. -/
theorem passes_append {g : Text} (hg : Scan.Sealed g) (left done : Nat) (t : Text) (s : Source) :
    (e.passes namespaces left done (g ++ t) s).text =
        g ++ (e.passes namespaces left done t s).text ∧
      (e.passes namespaces left done (g ++ t) s).source =
        (e.passes namespaces left done t s).source := by
  refine e.passes_within namespaces (g ++ ·) (Directive.scan_append hg) ?_ left done t s
  intro t s
  rw [substitute_text, substitute_text, Directive.map_raw_scan, Scan.replaceInTurn_append hg]

/-- What stands before the first directive of a prompt stays where it is. -/
theorem head_prefix_run (prompt : Text) (s : Source) :
    (Scan.ofText prompt).head <+: (e.run namespaces prompt s).text := by
  induction prompt using Scan.ind with
  | last rest h =>
    have hscan : Directive.scan rest = [] := by simp [Directive.scan, h, Scan.mentions]
    rw [run, (e.passes_of_scan_nil namespaces hscan _ _ _).1, h]
    exact List.prefix_refl rest
  | step g m t hg hread _ =>
    rw [run, (e.passes_append namespaces hg e.maxPasses 0 (m.raw ++ t) s).1,
      Scan.ofText_gap_mention hg hread]
    exact List.prefix_append g _

end Expander

/-- No directive of a pass is lost or replaced twice, whatever the values hold. -/
theorem pass_replaces_each_directive_once (t : Text) (values : List Text)
    (hlen : values.length = (Directive.scan t).length) :
    let raws := (Directive.scan t).map Directive.raw
    let result := Text.replaceInTurn (raws.zip values) t
    (∀ i (hi : i < raws.length),
      raws[i] <:+: Text.replaceInTurn ((raws.zip values).take i) t) ∧
    (∀ c, (result.count c : Int) = t.count c -
      ((raws.map (List.count c)).sum : Nat) + ((values.map (List.count c)).sum : Nat)) ∧
    (Scan.ofText t).fill raws = t ∧
    (Scan.ofText t).head <+: result ∧ (Scan.ofText t).rest <:+ result ∧
    ∀ (e : Expander) (namespaces : Keyed Node) (s : Source),
      (e.substitute namespaces (Directive.scan t) t s).text = Text.replaceInTurn
        (raws.zip (Directive.draws namespaces e.maxRepeat (Directive.scan t) s).1) t ∧
      (Scan.ofText t).head <+: (e.run namespaces t s).text := by
  have hfound : values.length = (Scan.ofText t).found.length := by
    rw [hlen, Directive.length_scan]
  dsimp only
  rw [Directive.map_raw_scan]
  refine ⟨Scan.raw_infix_replaceInTurn hfound, ?_, Scan.fill_raw t,
    Scan.head_prefix_replaceInTurn t values, Scan.rest_suffix_replaceInTurn hfound, ?_⟩
  · intro c
    have hc := Scan.count_replaceInTurn hfound c
    omega
  · intro e namespaces s
    have htext := e.substitute_text namespaces (Directive.scan t) t s
    rw [Directive.map_raw_scan] at htext
    exact ⟨htext, e.head_prefix_run namespaces t s⟩

/-- The first value brings in the text of the second directive, which is then replaced there. -/
theorem pass_replaces_each_directive_once_overlap :
    let t := Text.lit "x @a@ @b@ y"
    let values := [Text.lit "@b@>", Text.lit "@"]
    values.length = (Directive.scan t).length ∧
    Text.replaceInTurn (((Directive.scan t).map Directive.raw).zip values) t =
      Text.lit "x @> @b@ y" ∧
    (Scan.ofText t).head <+:
      Text.replaceInTurn (((Directive.scan t).map Directive.raw).zip values) t :=
  have hlen : [Text.lit "@b@>", Text.lit "@"].length =
      (Directive.scan (Text.lit "x @a@ @b@ y")).length := by decide +kernel
  ⟨hlen, by decide +kernel, (pass_replaces_each_directive_once _ _ hlen).2.2.2.1⟩

end PromptTags
