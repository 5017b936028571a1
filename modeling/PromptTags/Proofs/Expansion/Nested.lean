import PromptTags.Proofs.Expansion.Recursion

/-! Passes over templates that name templates. A pass replaces the first occurrence of a directive's text,
wherever that is. As long as it is a directive, the recursive expansion of the text stays what it was, and
there is one directive less to be replaced. -/
namespace PromptTags

theorem Source.between_self (n : Nat) (s : Source) : s.between n n = (n, s.step) := by
  have hlt : s.peek.toNat < UInt32.size := s.peek.toNat_lt
  have hbelow : s.below 1 = (0, s.step) := by
    simp only [below, wordCount, Nat.mul_one]
    rw [if_neg (by rw [Nat.mod_eq_of_lt hlt]; omega), Nat.div_eq_of_lt hlt]
  rw [between, Nat.sub_self, Nat.zero_add, hbelow]
  rfl

/-- A directive for one value expands to what its path resolves to, or to nothing. -/
theorem Directive.expand_once {d : Directive} (hd : d.range = .once) (namespaces : Keyed Node)
    {maxRepeat : Nat} (hr : 1 ≤ maxRepeat) (s : Source) :
    (d.expand namespaces maxRepeat s).text =
      match (Node.resolve namespaces d.path s.step).1 with
      | .ok value => value
      | .error _ => [] := by
  have hmin : Nat.min 1 maxRepeat = 1 := Nat.min_eq_left hr
  simp only [expand, hd, RepeatRange.once, hmin, show Nat.min 1 1 = 1 from rfl,
    Source.between_self, values]
  split
  · next h => simp [h, Text.join]
  · next h => simp [h, Text.join]

theorem Directive.expand_zero (d : Directive) (namespaces : Keyed Node) (s : Source) :
    (d.expand namespaces 0 s).text = [] := by
  simp only [expand, show ∀ n, Nat.min n 0 = 0 from Nat.min_zero, Source.between_self, values]
  rfl

namespace Template

variable {namespaces : Keyed Node} {T : Template} {keys : List Text} {n : Nat} {u : Text}

/-- An expansion on its way: the directives of the current pass that still wait, and the template that
the text is by now. -/
structure Progress where
  waiting : List (List Text)
  template : Template

namespace Progress

/-- Begin a pass with all directives of the template, or replace the next one by its scalar where it
stands first. -/
def step (namespaces : Keyed Node) (c : Progress) : Progress :=
  match c.waiting with
  | [] => ⟨c.template.named, c.template⟩
  | keys :: waiting => ⟨waiting, put keys (leaf namespaces keys) c.template⟩

def after (namespaces : Keyed Node) : Nat → Progress → Progress
  | 0, c => c
  | n + 1, c => after namespaces n (c.step namespaces)

/-- At no step of the expansion is the directive to be replaced next shadowed. -/
def Clear (namespaces : Keyed Node) (c : Progress) : Prop :=
  ∀ n keys waiting, (c.after namespaces n).waiting = keys :: waiting →
    ¬ Shadowed keys (c.after namespaces n).template

theorem clear_step {c : Progress} (h : Clear namespaces c) :
    Clear namespaces (c.step namespaces) := fun n => h (n + 1)

theorem not_shadowed_of_clear {waiting : List (List Text)}
    (h : Clear namespaces ⟨keys :: waiting, T⟩) : ¬ Shadowed keys T := h 0 keys waiting rfl

/-- Whether the expansion is done after a number of steps, none of which meets a shadowed directive. -/
def clears (namespaces : Keyed Node) : Nat → Progress → Bool
  | 0, c => c.waiting.isEmpty && c.template.named.isEmpty
  | n + 1, c =>
    (match c.waiting with
      | [] => true
      | keys :: _ => !decide (Shadowed keys c.template)) && clears namespaces n (c.step namespaces)

theorem clear_of_clears {c : Progress} {n : Nat} (h : clears namespaces n c = true) :
    Clear namespaces c := by
  induction n generalizing c with
  | zero =>
    obtain ⟨waiting, T⟩ := c
    simp only [clears, Bool.and_eq_true, List.isEmpty_iff] at h
    obtain ⟨rfl, hnamed⟩ := h
    have hstep : step namespaces ⟨[], T⟩ = ⟨[], T⟩ := by rw [step, hnamed]
    intro n keys waiting hwaiting
    induction n with
    | zero => cases hwaiting
    | succ n ih =>
      rw [after, hstep] at hwaiting ⊢
      exact ih hwaiting
  | succ n ih =>
    obtain ⟨hhead, hrest⟩ := Bool.and_eq_true_iff.1 h
    intro k keys waiting hwaiting
    cases k with
    | zero =>
      rw [after] at hwaiting ⊢
      rw [hwaiting] at hhead
      simpa using hhead
    | succ k => exact ih hrest k keys waiting hwaiting

end Progress

theorem expand_directiveOf {v : Text} {maxRepeat : Nat} (hr : 1 ≤ maxRepeat)
    (h : Node.lookup namespaces keys = .ok (.scalar v)) (s : Source) :
    ((directiveOf keys).expand namespaces maxRepeat s).text = v := by
  rw [Directive.expand_once rfl namespaces hr, directiveOf, Node.resolve, h]
  simp [Node.pick]

/-- The rest of a pass takes as many replacements from the recursive expansion as directives wait. -/
theorem substitute_text_eq {e : Expander} (hr : 1 ≤ e.maxRepeat) {waiting : List (List Text)}
    (hT : Proper T) (h : Expands namespaces T n u) {others : List (List Text)}
    (hwaiting : T.named.Perm (waiting ++ others))
    (hclear : Progress.Clear namespaces ⟨waiting, T⟩) (s : Source) :
    ∃ U m, (e.substitute namespaces (waiting.map directiveOf) T.text s).text = U.text ∧
      Proper U ∧ Expands namespaces U m u ∧ n = m + waiting.length ∧
      Progress.Clear namespaces ⟨[], U⟩ := by
  induction waiting generalizing T n others s with
  | nil => exact ⟨T, n, rfl, hT, h, rfl, hclear⟩
  | cons keys waiting ih =>
    have hk : keys ∈ T.named := hwaiting.mem_iff.2 List.mem_cons_self
    -- the scalar goes to the first directive with the path, and its directives join the others
    obtain ⟨hproper, hlookup⟩ := leaf_of_expands h hk
    obtain ⟨m, rfl, hput⟩ := expands_put h hk
    obtain ⟨rest, h₁, h₂⟩ := named_put hk (leaf namespaces keys)
    have hrest : rest.Perm (waiting ++ others) := (h₁.symm.trans hwaiting).cons_inv
    have hwaiting' : (named (put keys (leaf namespaces keys) T)).Perm
        (waiting ++ ((leaf namespaces keys).named ++ others)) :=
      h₂.trans ((hrest.append_left _).trans (List.perm_append_comm_assoc _ _ _))
    have htext := replaceFirst_text hT hk (Progress.not_shadowed_of_clear hclear)
      (leaf namespaces keys)
    obtain ⟨U, m', hU, hproperU, hexp, hm, hclearU⟩ :=
      ih (proper_put hT hproper) hput hwaiting' (Progress.clear_step hclear)
        ((directiveOf keys).expand namespaces e.maxRepeat s).source
    refine ⟨U, m', ?_, hproperU, hexp, by rw [hm, List.length_cons]; omega, hclearU⟩
    have hraw : (directiveOf keys).raw = (Piece.directive keys).text := rfl
    rw [← hU, ← htext]
    simp only [List.map_cons, Expander.substitute, hraw, expand_directiveOf hr hlookup]

/-- Enough passes carry a template to its recursive expansion. -/
theorem passes_text_eq {e : Expander} (hr : 1 ≤ e.maxRepeat) (hT : Proper T)
    (h : Expands namespaces T n u) (hclear : Progress.Clear namespaces ⟨[], T⟩) {left : Nat}
    (hleft : n ≤ left) (done : Nat) (s : Source) :
    (e.passes namespaces left done T.text s).text = u := by
  induction left generalizing T n done s with
  | zero =>
    -- no passes are left, and no directives either
    have hlen := length_named_le h
    have hnil : T.named = [] := List.eq_nil_of_length_eq_zero (by omega)
    exact (eq_text_of_expands h hnil).symm
  | succ left ih =>
    by_cases hnil : T.named = []
    · have hscan : Directive.scan T.text = [] := by rw [scan_text hT, hnil, List.map_nil]
      rw [(e.passes_of_scan_nil namespaces hscan _ _ _).1, eq_text_of_expands h hnil]
    · have hscan : Directive.scan T.text ≠ [] := by
        rw [scan_text hT]
        exact fun hmap => hnil (List.map_eq_nil_iff.1 hmap)
      have hpos := List.length_pos_iff.2 hnil
      have hperm : T.named.Perm (T.named ++ []) := by rw [List.append_nil]
      have hpass : Progress.Clear namespaces ⟨T.named, T⟩ := Progress.clear_step hclear
      obtain ⟨U, m, hU, hproper, hexp, hm, hclearU⟩ :=
        substitute_text_eq hr hT h hperm hpass s
      rw [(e.passes_succ namespaces hscan left done s).1, scan_text hT, hU]
      exact ih hproper hexp hclearU (by omega) _ _

/-- Templates over scalars that name each other without a cycle expand to their recursive expansion,
with any source, as soon as there are as many passes as directives to replace. -/
theorem run_eq_recursive_expansion (namespaces : Keyed Node) (T : Template) (hT : T.Proper)
    (hstore : ∀ entry ∈ namespaces, ∀ v ∈ entry.2.leaves, WellFormed v)
    (hscalar : ∀ keys, Reaches namespaces T keys →
      ∃ v, Node.lookup namespaces keys = .ok (.scalar v))
    (hacyclic : ∀ keys, Reaches namespaces T keys →
      ¬ Relation.TransGen (Calls namespaces) keys keys)
    (hclear : Progress.Clear namespaces ⟨[], T⟩) :
    (∃ n u, Expands namespaces T n u) ∧
    ∀ n u, Expands namespaces T n u → ∀ (e : Expander) (s : Source), n ≤ e.maxPasses →
      1 ≤ e.maxRepeat → (e.run namespaces T.text s).text = u := by
  refine ⟨exists_expands hstore hscalar hacyclic, ?_⟩
  intro n u h e s hpasses hrepeat
  exact passes_text_eq hrepeat hT h hclear hpasses 0 s

/-- A dictionary in which one scalar has the path of another between two directives. -/
def crossing : Keyed Node :=
  [(Text.lit "a", .scalar (Text.lit "@c@b@c@")), (Text.lit "b", .scalar (Text.lit "B")),
    (Text.lit "c", .scalar (Text.lit "C"))]

theorem lookup_crossing {v : Text} (h : Node.lookup crossing keys = .ok (.scalar v)) :
    keys = [Text.lit "a"] ∧ v = Text.lit "@c@b@c@" ∨ keys = [Text.lit "b"] ∧ v = Text.lit "B" ∨
      keys = [Text.lit "c"] ∧ v = Text.lit "C" := by
  have hscalars : ∀ entry ∈ crossing, ∃ v, entry.2 = .scalar v := by simp [crossing]
  obtain ⟨key, rfl, hmem⟩ := Node.mem_of_lookup_scalars hscalars h
  simpa [crossing] using hmem

def crossingBody : Template :=
  [.directive [Text.lit "c"], .plain (Text.lit "b"), .directive [Text.lit "c"]]

theorem wellFormed_crossing : ∀ entry ∈ crossing, ∀ v ∈ entry.2.leaves, WellFormed v := by
  intro entry hentry v hv
  simp only [crossing, List.mem_cons, List.not_mem_nil, or_false] at hentry
  rcases hentry with rfl | rfl | rfl
  all_goals
    rw [Node.leaves_scalar, List.mem_singleton] at hv
    subst hv
  · exact ⟨crossingBody, by decide, rfl⟩
  · exact ⟨[.plain (Text.lit "B")], by decide, rfl⟩
  · exact ⟨[.plain (Text.lit "C")], by decide, rfl⟩

theorem calls_crossing {callee : List Text} (h : Calls crossing keys callee) :
    keys = [Text.lit "a"] ∧ callee = [Text.lit "c"] := by
  obtain ⟨inner, hproper, hlookup, hmem⟩ := h
  have ha : named (ofText (Text.lit "@c@b@c@")) = [[Text.lit "c"], [Text.lit "c"]] :=
    (ofText_text (T := crossingBody) (by decide)).2.2
  have hb : named (ofText (Text.lit "B")) = [] :=
    (ofText_text (T := [.plain (Text.lit "B")]) (by decide)).2.2
  have hc : named (ofText (Text.lit "C")) = [] :=
    (ofText_text (T := [.plain (Text.lit "C")]) (by decide)).2.2
  rw [← (ofText_text hproper).2.2] at hmem
  rcases lookup_crossing hlookup with ⟨hkeys, hv⟩ | ⟨-, hv⟩ | ⟨-, hv⟩
  · rw [hv, ha] at hmem
    exact ⟨hkeys, by simpa using hmem⟩
  · rw [hv, hb] at hmem
    cases hmem
  · rw [hv, hc] at hmem
    cases hmem

theorem acyclic_crossing : ¬ Relation.TransGen (Calls crossing) keys keys := by
  intro h
  obtain ⟨callee, hfirst, -⟩ := Relation.TransGen.head'_iff.1 h
  obtain ⟨caller, -, hlast⟩ := Relation.TransGen.tail'_iff.1 h
  have hkeys := (calls_crossing hfirst).1
  rw [(calls_crossing hlast).2] at hkeys
  exact absurd hkeys (by decide)

theorem scalar_crossing (hT : ∀ keys ∈ T.named, keys ∈ [[Text.lit "a"], [Text.lit "b"]])
    (h : Reaches crossing T keys) : ∃ v, Node.lookup crossing keys = .ok (.scalar v) := by
  obtain ⟨start, hstart, hreach⟩ := h
  rcases hreach.cases_tail with rfl | ⟨caller, -, hcall⟩
  · have hkeys := hT _ hstart
    simp only [List.mem_cons, List.not_mem_nil, or_false] at hkeys
    rcases hkeys with rfl | rfl
    · exact ⟨_, rfl⟩
    · exact ⟨_, rfl⟩
  · rw [(calls_crossing hcall).2]
    exact ⟨_, rfl⟩

theorem expands_crossing :
    Expands crossing [.directive [Text.lit "a"]] 3 (Text.lit "CbC") ∧
      Expands crossing [.directive [Text.lit "b"]] 1 (Text.lit "B") := by
  have hscalar {inner : Template} {k v : Text} {m : Nat} (hproper : inner.Proper)
      (hlookup : Node.lookup crossing [k] = .ok (.scalar inner.text))
      (hv : Expands crossing inner m v) : Expands crossing [.directive [k]] (m + 1) v := by
    simpa using Expands.directive hproper hlookup hv .nil
  have hB : Expands crossing [.directive [Text.lit "b"]] 1 (Text.lit "B") :=
    hscalar (by decide) rfl (Expands.plain (x := Text.lit "B") .nil)
  have hC : Expands crossing [.directive [Text.lit "c"]] 1 (Text.lit "C") :=
    hscalar (by decide) rfl (Expands.plain (x := Text.lit "C") .nil)
  have hbetween := expands_append hC (.plain (x := Text.lit "b") hC)
  exact ⟨hscalar (by decide) rfl hbetween, hB⟩

/-- A prompt whose second directive is shadowed as soon as the first one is replaced. -/
def shadowedPrompt : Template :=
  [.directive [Text.lit "a"], .plain (Text.lit " "), .directive [Text.lit "b"]]

theorem scan_shadowedPrompt : Directive.scan (text shadowedPrompt) =
    [directiveOf [Text.lit "a"], directiveOf [Text.lit "b"]] := scan_text (by decide)

theorem run_shadowedPrompt {e : Expander} (hpasses : 2 ≤ e.maxPasses) (hrepeat : 1 ≤ e.maxRepeat)
    (s : Source) : (e.run crossing (text shadowedPrompt) s).text = Text.lit " B" := by
  have hvalue {k v : Text} (h : Node.lookup crossing [k] = .ok (.scalar v)) (s : Source) :
      ((directiveOf [k]).expand crossing e.maxRepeat s).text = v := expand_directiveOf hrepeat h s
  have hmissing (s : Source) :
      ((directiveOf [Text.lit "cBc"]).expand crossing e.maxRepeat s).text = [] :=
    Directive.expand_once rfl crossing hrepeat s
  -- the first pass puts the value of the second directive between two others
  have hfirst (s : Source) : (e.substitute crossing (Directive.scan (text shadowedPrompt))
      (text shadowedPrompt) s).text = Text.lit "@cBc@ @b@" := by
    simp only [scan_shadowedPrompt, Expander.substitute, hvalue (k := Text.lit "a") rfl,
      hvalue (k := Text.lit "b") rfl]
    rfl
  -- which the second pass reads as one directive with a path that is not there
  have hscan : Directive.scan (Text.lit "@cBc@ @b@") =
      [directiveOf [Text.lit "cBc"], directiveOf [Text.lit "b"]] :=
    scan_text (T := [.directive [Text.lit "cBc"], .plain (Text.lit " "), .directive [Text.lit "b"]])
      (by decide)
  have hsecond (s : Source) : (e.substitute crossing (Directive.scan (Text.lit "@cBc@ @b@"))
      (Text.lit "@cBc@ @b@") s).text = Text.lit " B" := by
    simp only [hscan, Expander.substitute, hmissing, hvalue (k := Text.lit "b") rfl]
    rfl
  have hdone : Directive.scan (Text.lit " B") = [] :=
    Directive.scan_of_sealed (Scan.sealed_of_notMem (by decide))
  obtain ⟨left, hleft⟩ := Nat.exists_eq_add_of_le' hpasses
  rw [Expander.run, hleft,
    (e.passes_succ crossing (by simp [scan_shadowedPrompt]) (left + 1) 0 s).1, hfirst,
    (e.passes_succ crossing (by simp [hscan]) left 1 _).1, hsecond,
    (e.passes_of_scan_nil crossing hdone _ _ _).1]

theorem run_shadowedPrompt_of_no_values {e : Expander} (hpasses : 1 ≤ e.maxPasses)
    (hrepeat : e.maxRepeat = 0) (s : Source) :
    (e.run crossing (text shadowedPrompt) s).text = Text.lit " " := by
  have hpass (s : Source) : (e.substitute crossing (Directive.scan (text shadowedPrompt))
      (text shadowedPrompt) s).text = Text.lit " " := by
    simp only [scan_shadowedPrompt, Expander.substitute, hrepeat, Directive.expand_zero]
    rfl
  have hdone : Directive.scan (Text.lit " ") = [] :=
    Directive.scan_of_sealed (Scan.sealed_of_notMem (by decide))
  obtain ⟨left, hleft⟩ := Nat.exists_eq_add_of_le' hpasses
  rw [Expander.run, hleft, (e.passes_succ crossing (by simp [scan_shadowedPrompt]) left 0 s).1,
    hpass, (e.passes_of_scan_nil crossing hdone _ _ _).1]

/-- This prompt has a recursive expansion, but no number of passes leads to it: the text between the
two directives of the first scalar is lost, and all values are if none may be drawn. -/
theorem recursive_expansion_fails_when_shadowed :
    shadowedPrompt.Proper ∧
    (∀ entry ∈ crossing, ∀ v ∈ entry.2.leaves, WellFormed v) ∧
    (∀ keys, Reaches crossing shadowedPrompt keys →
      ∃ v, Node.lookup crossing keys = .ok (.scalar v)) ∧
    (∀ keys, Reaches crossing shadowedPrompt keys →
      ¬ Relation.TransGen (Calls crossing) keys keys) ∧
    Expands crossing shadowedPrompt 4 (Text.lit "CbC B") ∧
    (∀ (e : Expander) (s : Source), 2 ≤ e.maxPasses → 1 ≤ e.maxRepeat →
      (e.run crossing (Text.lit "@a@ @b@") s).text = Text.lit " B") ∧
    ∀ (e : Expander) (s : Source), 1 ≤ e.maxPasses → e.maxRepeat = 0 →
      (e.run crossing (Text.lit "@a@ @b@") s).text = Text.lit " " := by
  refine ⟨by decide, wellFormed_crossing, fun _ => scalar_crossing (by decide),
    fun _ _ => acyclic_crossing, ?_, ?_, ?_⟩
  · exact expands_append expands_crossing.1 (.plain (x := Text.lit " ") expands_crossing.2)
  · intro e s hpasses hrepeat
    exact run_shadowedPrompt hpasses hrepeat s
  · intro e s hpasses hrepeat
    exact run_shadowedPrompt_of_no_values hpasses hrepeat s

/-- With its directives in the other order the prompt expands as it should. -/
theorem run_eq_recursive_expansion_crossing :
    let T : Template := [.directive [Text.lit "b"], .plain (Text.lit " "), .directive [Text.lit "a"]]
    T.Proper ∧ (∀ entry ∈ crossing, ∀ v ∈ entry.2.leaves, WellFormed v) ∧
    (∀ keys, Reaches crossing T keys → ∃ v, Node.lookup crossing keys = .ok (.scalar v)) ∧
    (∀ keys, Reaches crossing T keys → ¬ Relation.TransGen (Calls crossing) keys keys) ∧
    Progress.Clear crossing ⟨[], T⟩ ∧
    ∀ (e : Expander) (s : Source), 4 ≤ e.maxPasses → 1 ≤ e.maxRepeat →
      (e.run crossing (Text.lit "@b@ @a@") s).text = Text.lit "B CbC" := by
  intro T
  have hT : T.Proper := by decide
  have hscalar : ∀ keys, Reaches crossing T keys →
      ∃ v, Node.lookup crossing keys = .ok (.scalar v) := fun _ => scalar_crossing (by decide)
  have hclear : Progress.Clear crossing ⟨[], T⟩ :=
    Progress.clear_of_clears (n := 6) (by decide +kernel)
  have hexpands : Expands crossing T 4 (Text.lit "B CbC") :=
    expands_append expands_crossing.2 (.plain (x := Text.lit " ") expands_crossing.1)
  refine ⟨hT, wellFormed_crossing, hscalar, fun _ _ => acyclic_crossing, hclear, ?_⟩
  exact (run_eq_recursive_expansion crossing T hT wellFormed_crossing hscalar
    (fun _ _ => acyclic_crossing) hclear).2 4 _ hexpands

end Template

end PromptTags
