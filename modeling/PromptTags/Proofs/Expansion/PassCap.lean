import Mathlib.Logic.Function.Iterate
import PromptTags.Proofs.Expansion.Substitution

/-! Caps on passes. A pass leads from a text and a source to a text and a source, and changes neither where
no directive is left. So an expansion gives what as many passes give as its cap says, also where it stops
before, and the caps of expansions that go on from each other add up. -/
namespace PromptTags

namespace Expander

variable (e : Expander) (namespaces : Keyed Node)

/-- One pass, from a text and a source to what it makes of them. -/
def pass (state : Text × Source) : Text × Source :=
  let after := e.substitute namespaces (Directive.scan state.1) state.1 state.2
  (after.text, after.source)

theorem pass_of_scan_nil {state : Text × Source} (h : Directive.scan state.1 = []) :
    e.pass namespaces state = state := by
  simp only [pass, h, substitute]

theorem pass_congr {e e' : Expander} (h : e.maxRepeat = e'.maxRepeat) :
    e.pass namespaces = e'.pass namespaces := by
  funext state
  simp only [pass, substitute_text, substitute_source, h]

/-- The passes of an expansion are the pass, repeated. -/
theorem passes_eq_iterate (left done : Nat) (t : Text) (s : Source) :
    ((e.passes namespaces left done t s).text, (e.passes namespaces left done t s).source) =
      (e.pass namespaces)^[left] (t, s) := by
  induction left generalizing done t s with
  | zero => rfl
  | succ left ih =>
    by_cases h : Directive.scan t = []
    · -- the code stops here; the passes that it leaves out would change nothing
      have hfixed : e.pass namespaces (t, s) = (t, s) := e.pass_of_scan_nil namespaces h
      obtain ⟨htext, hsource⟩ := e.passes_of_scan_nil namespaces h (left + 1) done s
      rw [htext, hsource, Function.iterate_fixed hfixed]
    · obtain ⟨htext, hsource⟩ := e.passes_succ namespaces h left done s
      rw [htext, hsource, ih, Function.iterate_succ_apply]
      rfl

theorem run_eq_iterate (prompt : Text) (s : Source) :
    ((e.run namespaces prompt s).text, (e.run namespaces prompt s).source) =
      (e.pass namespaces)^[e.maxPasses] (prompt, s) :=
  e.passes_eq_iterate namespaces e.maxPasses 0 prompt s

theorem run_add (m n maxRepeat : Nat) (prompt : Text) (s : Source) :
    let first := run ⟨m, maxRepeat⟩ namespaces prompt s
    let second := run ⟨n, maxRepeat⟩ namespaces first.text first.source
    let whole := run ⟨m + n, maxRepeat⟩ namespaces prompt s
    whole.text = second.text ∧ whole.source = second.source := by
  intro first second whole
  have hfirst : (first.text, first.source) = (pass ⟨m, maxRepeat⟩ namespaces)^[m] (prompt, s) :=
    run_eq_iterate ⟨m, maxRepeat⟩ namespaces prompt s
  have hsecond : (second.text, second.source) =
      (pass ⟨n, maxRepeat⟩ namespaces)^[n] (first.text, first.source) :=
    run_eq_iterate ⟨n, maxRepeat⟩ namespaces first.text first.source
  have hsame (cap : Nat) : pass ⟨cap, maxRepeat⟩ namespaces = pass ⟨m, maxRepeat⟩ namespaces :=
    pass_congr namespaces rfl
  apply Prod.mk.inj
  calc (whole.text, whole.source)
      = (pass ⟨m + n, maxRepeat⟩ namespaces)^[m + n] (prompt, s) :=
        run_eq_iterate ⟨m + n, maxRepeat⟩ namespaces prompt s
    _ = (pass ⟨m, maxRepeat⟩ namespaces)^[n] ((pass ⟨m, maxRepeat⟩ namespaces)^[m] (prompt, s)) := by
        rw [hsame (m + n), Nat.add_comm m n, Function.iterate_add_apply]
    _ = (second.text, second.source) := by rw [hsecond, hsame n, hfirst]

/-- How many passes are made: those before a text without directives, and no more than are left. -/
def passCount : (left : Nat) → Text × Source → Nat
  | 0, _ => 0
  | left + 1, state =>
    if Directive.scan state.1 = [] then 0 else passCount left (e.pass namespaces state) + 1

theorem passCount_le (left : Nat) (state : Text × Source) :
    e.passCount namespaces left state ≤ left := by
  induction left generalizing state with
  | zero => exact Nat.le_refl 0
  | succ left ih =>
    rw [passCount]
    split
    · exact Nat.zero_le _
    · exact Nat.succ_le_succ (ih _)

/-- Every pass that is made finds a directive. -/
theorem scan_ne_nil_of_lt_passCount {left k : Nat} {state : Text × Source}
    (h : k < e.passCount namespaces left state) :
    Directive.scan ((e.pass namespaces)^[k] state).1 ≠ [] := by
  induction left generalizing k state with
  | zero => exact absurd h (Nat.not_lt_zero k)
  | succ left ih =>
    rw [passCount] at h
    split at h
    · exact absurd h (Nat.not_lt_zero k)
    · next hscan =>
      cases k with
      | zero => exact hscan
      | succ k =>
        rw [Function.iterate_succ_apply]
        exact ih (Nat.lt_of_succ_lt_succ h)

/-- The passes that are not made any more would find nothing and change nothing. -/
theorem scan_eq_nil_of_passCount_lt {left : Nat} {state : Text × Source}
    (h : e.passCount namespaces left state < left) :
    Directive.scan ((e.pass namespaces)^[left] state).1 = [] := by
  induction left generalizing state with
  | zero => exact absurd h (Nat.not_lt_zero _)
  | succ left ih =>
    rw [passCount] at h
    split at h
    · next hscan =>
      rw [Function.iterate_fixed (e.pass_of_scan_nil namespaces hscan)]
      exact hscan
    · rw [Function.iterate_succ_apply]
      exact ih (Nat.lt_of_succ_lt_succ h)

theorem iterate_passCount (left : Nat) (state : Text × Source) :
    (e.pass namespaces)^[e.passCount namespaces left state] state =
      (e.pass namespaces)^[left] state := by
  induction left generalizing state with
  | zero => rfl
  | succ left ih =>
    rw [passCount]
    split
    · next hscan =>
      exact (Function.iterate_fixed (e.pass_of_scan_nil namespaces hscan) (left + 1)).symm
    · rw [Function.iterate_succ_apply, Function.iterate_succ_apply, ih]

end Expander

/-! ### The end of the log -/

/-- A record within a run: a warning, or a remark on a repeat text. -/
def LogRecord.IsInner (r : LogRecord) : Prop := r.level = .warn ∨ r.message.toList.head? = some 'R'

theorem Directive.isInner_scanLog {t : Text} {r : LogRecord} (h : r ∈ scanLog t) : r.IsInner := by
  obtain ⟨m, -, hr⟩ := List.mem_flatMap.1 h
  rw [Mention.remark] at hr
  split at hr
  · cases hr
  · split at hr
    · cases hr
    · obtain rfl := List.mem_singleton.1 hr
      exact .inr (by simp [toString])

theorem Directive.isInner_values {namespaces : Keyed Node} {d : Directive} {n : Nat} {s : Source}
    {r : LogRecord} (h : r ∈ (values namespaces d n s).2.2) : r.IsInner := by
  induction n generalizing s with
  | zero => cases h
  | succ n ih =>
    rw [values] at h
    split at h
    · exact ih h
    · rcases List.mem_cons.1 h with rfl | h
      · exact .inl rfl
      · exact ih h

theorem Directive.isInner_expand {namespaces : Keyed Node} {maxRepeat : Nat} {d : Directive}
    {s : Source} {r : LogRecord} (h : r ∈ (d.expand namespaces maxRepeat s).log) : r.IsInner := by
  simp only [expand, List.mem_append] at h
  rcases h with h | h
  · split at h
    · obtain rfl := List.mem_singleton.1 h
      exact .inl rfl
    · cases h
  · exact isInner_values h

namespace Expander

variable {e : Expander} {namespaces : Keyed Node}

theorem isInner_substitute {ds : List Directive} {t : Text} {s : Source} {r : LogRecord}
    (h : r ∈ (e.substitute namespaces ds t s).log) : r.IsInner := by
  induction ds generalizing t s with
  | nil => cases h
  | cons d ds ih =>
    rcases List.mem_append.1 h with h | h
    · exact Directive.isInner_expand h
    · exact ih h

variable (e namespaces)

/-- The log of the passes ends with the closing log for as many as were made. -/
theorem log_passes (left done : Nat) (t : Text) (s : Source) :
    ∃ before : Log, (∀ r ∈ before, r.IsInner) ∧ (e.passes namespaces left done t s).log =
      before ++ e.closingLog (done + e.passCount namespaces left (t, s))
        (e.passes namespaces left done t s).text := by
  induction left generalizing done t s with
  | zero => exact ⟨[], by simp, rfl⟩
  | succ left ih =>
    cases hscan : Directive.scan t with
    | nil =>
      refine ⟨[], by simp, ?_⟩
      simp [passes, passCount, hscan]
    | cons d ds =>
      have hpass : e.pass namespaces (t, s) = ((e.substitute namespaces (d :: ds) t s).text,
          (e.substitute namespaces (d :: ds) t s).source) := by
        simp only [pass, hscan]
      obtain ⟨before, hinner, hlog⟩ := ih (done + 1)
        (e.substitute namespaces (d :: ds) t s).text (e.substitute namespaces (d :: ds) t s).source
      refine ⟨Directive.scanLog t ++ (e.substitute namespaces (d :: ds) t s).log ++ before, ?_, ?_⟩
      · intro r hr
        simp only [List.mem_append] at hr
        rcases hr with (hr | hr) | hr
        · exact Directive.isInner_scanLog hr
        · exact isInner_substitute hr
        · exact hinner r hr
      · simp [passes, passCount, hscan, hlog, hpass, Nat.add_assoc, Nat.add_comm 1]

def stopped : LogRecord :=
  ⟨.debug, s!"Stopped after {e.maxPasses} passes with directives remaining"⟩

def settled (made : Nat) : LogRecord := ⟨.debug, s!"Expanded prompt in {made} pass(es)"⟩

theorem settled_ne_stopped (made : Nat) : settled made ≠ e.stopped := by
  intro h
  have hhead := congrArg (fun r => r.message.toList.head?) h
  simp [settled, stopped, toString] at hhead

theorem not_isInner_stopped : ¬ e.stopped.IsInner := by
  rintro (h | h)
  · cases h
  · simp [stopped, toString] at h

theorem closingLog_eq {made : Nat} {t : Text} (h : made ≠ e.maxPasses → Directive.scan t = []) :
    ∃ before : Log, (∀ r ∈ before, r.IsInner) ∧ e.closingLog made t =
      before ++ [if Directive.scan t = [] then settled made else e.stopped] := by
  rw [closingLog]
  split
  · refine ⟨Directive.scanLog t, fun r hr => Directive.isInner_scanLog hr, ?_⟩
    split <;> rfl
  · next hmade =>
    refine ⟨[], by simp, ?_⟩
    rw [if_pos (h hmade)]
    rfl

/-- A run logs last whether it was stopped, and nowhere before. -/
theorem log_run (prompt : Text) (s : Source) :
    ∃ before : Log, (∀ r ∈ before, r.IsInner) ∧ (e.run namespaces prompt s).log =
      before ++ [if Directive.scan (e.run namespaces prompt s).text = []
        then settled (e.passCount namespaces e.maxPasses (prompt, s)) else e.stopped] := by
  have hscan : e.passCount namespaces e.maxPasses (prompt, s) ≠ e.maxPasses →
      Directive.scan (e.run namespaces prompt s).text = [] := by
    intro hne
    have hlt := Nat.lt_of_le_of_ne (e.passCount_le namespaces e.maxPasses (prompt, s)) hne
    have hnil := e.scan_eq_nil_of_passCount_lt namespaces hlt
    rwa [← e.run_eq_iterate namespaces prompt s] at hnil
  obtain ⟨before, hinner, hlog⟩ := e.log_passes namespaces e.maxPasses 0 prompt s
  obtain ⟨before', hinner', hclosing⟩ := e.closingLog_eq hscan
  refine ⟨before ++ before', ?_, ?_⟩
  · intro r hr
    rcases List.mem_append.1 hr with hr | hr
    · exact hinner r hr
    · exact hinner' r hr
  · rw [Nat.zero_add] at hlog
    rw [List.append_assoc, ← hclosing]
    exact hlog

end Expander

/-- Caps on passes add up, so that once no directive is left a greater cap changes nothing. Where one is left,
as many passes were made as the cap says, each over some directive, and the log says that it stopped them.
A text without directives is left as it is, and nothing is drawn for it. -/
theorem pass_caps_add_up (namespaces : Keyed Node) (prompt : Text) (s : Source) (m maxRepeat : Nat) :
    let e : Expander := ⟨m, maxRepeat⟩
    let out := e.run namespaces prompt s
    let made := e.passCount namespaces m (prompt, s)
    (∀ n,
      let more := Expander.run ⟨n, maxRepeat⟩ namespaces out.text out.source
      let whole := Expander.run ⟨m + n, maxRepeat⟩ namespaces prompt s
      whole.text = more.text ∧ whole.source = more.source) ∧
    (Directive.scan out.text = [] → ∀ cap, m ≤ cap →
      (Expander.run ⟨cap, maxRepeat⟩ namespaces prompt s).text = out.text ∧
        (Expander.run ⟨cap, maxRepeat⟩ namespaces prompt s).source = out.source) ∧
    (made ≤ m ∧ (out.text, out.source) = (e.pass namespaces)^[made] (prompt, s) ∧
      (∀ k < made, Directive.scan ((e.pass namespaces)^[k] (prompt, s)).1 ≠ [])) ∧
    (Directive.scan out.text ≠ [] → made = m) ∧
    (e.stopped ∈ out.log ↔ Directive.scan out.text ≠ []) ∧
    out.log.getLast? =
      some (if Directive.scan out.text = [] then Expander.settled made else e.stopped) ∧
    (marker ∉ prompt ∨ Directive.scan prompt = [] → out.text = prompt ∧ out.source = s) := by
  intro e out made
  have hout : (out.text, out.source) = (e.pass namespaces)^[m] (prompt, s) :=
    e.run_eq_iterate namespaces prompt s
  obtain ⟨before, hinner, hlog⟩ := e.log_run namespaces prompt s
  refine ⟨fun n => Expander.run_add namespaces m n maxRepeat prompt s, ?_, ⟨?_, ?_, ?_⟩, ?_, ?_, ?_, ?_⟩
  · intro hnil cap hcap
    -- what the greater cap adds are passes over the text that is left
    obtain ⟨n, rfl⟩ := Nat.exists_eq_add_of_le hcap
    obtain ⟨htext, hsource⟩ := Expander.run_add namespaces m n maxRepeat prompt s
    obtain ⟨htext', hsource'⟩ :=
      Expander.passes_of_scan_nil ⟨n, maxRepeat⟩ namespaces hnil n 0 out.source
    exact ⟨htext.trans htext', hsource.trans hsource'⟩
  · exact e.passCount_le namespaces m (prompt, s)
  · rw [hout]
    exact (e.iterate_passCount namespaces m (prompt, s)).symm
  · intro k hk
    exact e.scan_ne_nil_of_lt_passCount namespaces hk
  · intro hleft
    apply Classical.byContradiction
    intro hne
    have hlt : made < m := Nat.lt_of_le_of_ne (e.passCount_le namespaces m (prompt, s)) hne
    have hnil := e.scan_eq_nil_of_passCount_lt namespaces hlt
    rw [← hout] at hnil
    exact hleft hnil
  · change _ ∈ (e.run namespaces prompt s).log ↔ _
    rw [hlog, List.mem_append, List.mem_singleton]
    constructor
    · rintro (h | h) hnil
      · exact e.not_isInner_stopped (hinner _ h)
      · rw [if_pos hnil] at h
        exact e.settled_ne_stopped made h.symm
    · intro hleft
      rw [if_neg hleft]
      exact .inr rfl
  · change (e.run namespaces prompt s).log.getLast? = _
    rw [hlog, List.getLast?_concat]
  · intro h
    have hnil : Directive.scan prompt = [] := by
      rcases h with h | h
      · exact Directive.scan_of_sealed (Scan.sealed_of_notMem h)
      · exact h
    exact e.passes_of_scan_nil namespaces hnil m 0 s

/-- A template that names itself never settles, and beside it one that does after two passes. -/
theorem pass_caps_add_up_cycle :
    let namespaces : Keyed Node := [(Text.lit "loop", .scalar (Text.lit "x@loop@")),
      (Text.lit "once", .list [Text.lit "@two@"]), (Text.lit "two", .scalar (Text.lit "a@b"))]
    let s := Source.cycle [5]
    let cyclic := Expander.run ⟨3, 100⟩ namespaces (Text.lit "@loop@") s
    let done := Expander.run ⟨2, 100⟩ namespaces (Text.lit "@once@") s
    Directive.scan cyclic.text ≠ [] ∧ cyclic.text = Text.lit "xxx@loop@" ∧
    Expander.passCount ⟨3, 100⟩ namespaces 3 (Text.lit "@loop@", s) = 3 ∧
    Expander.stopped ⟨3, 100⟩ ∈ cyclic.log ∧
    Directive.scan done.text = [] ∧ done.text = Text.lit "a@b" ∧
    (Expander.run ⟨7, 100⟩ namespaces (Text.lit "@once@") s).text = done.text ∧
    (Expander.run ⟨7, 100⟩ namespaces (Text.lit "a@b") s).text = Text.lit "a@b" := by
  intro namespaces s cyclic done
  have hcyclic : Directive.scan cyclic.text ≠ [] := by decide +kernel
  have hdone : Directive.scan done.text = [] := by decide +kernel
  have hplain : Directive.scan (Text.lit "a@b") = [] := by decide +kernel
  obtain ⟨-, -, -, hmade, hlog, -, -⟩ := pass_caps_add_up namespaces (Text.lit "@loop@") s 3 100
  obtain ⟨-, hgreater, -⟩ := pass_caps_add_up namespaces (Text.lit "@once@") s 2 100
  obtain ⟨-, -, -, -, -, -, hunchanged⟩ := pass_caps_add_up namespaces (Text.lit "a@b") s 7 100
  exact ⟨hcyclic, by decide +kernel, hmade hcyclic, hlog.2 hcyclic, hdone, by decide +kernel,
    (hgreater hdone 7 (by decide)).1, (hunchanged (.inr hplain)).1⟩

end PromptTags
