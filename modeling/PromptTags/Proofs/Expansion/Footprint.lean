import PromptTags.Proofs.Dictionary.Load
import PromptTags.Proofs.Expansion.Draws

/-! What an expansion reads of a dictionary. Of the trees under all namespaces it reads those that its
directives name, and of the others not even whether they are there. The directives are those of the run
itself, as values bring in new ones; two runs are kept in step, pass by pass, by the first of them. -/
namespace PromptTags

/-- A path is followed within the tree under its first key. -/
theorem Node.lookup_eq_of_head {A B : Keyed Node} {path : List Text}
    (h : ∀ key, path.head? = some key → Keyed.get? key A = Keyed.get? key B) :
    lookup A path = lookup B path := by
  cases path with
  | nil => rfl
  | cons key keys => rw [lookup, lookup, h key rfl]

namespace Expander

variable (e : Expander)

/-- The directives that are found in a text and expanded, in at most `left` passes. -/
def scanned (namespaces : Keyed Node) : (left : Nat) → Text → Source → List Directive
  | 0, _, _ => []
  | left + 1, text, s =>
    let pass := e.substitute namespaces (Directive.scan text) text s
    Directive.scan text ++ scanned namespaces left pass.text pass.source

/-- Two dictionaries hold the same, a tree or nothing, under the first key of every directive of a run over
the first of them. -/
def AgreeWhereNamed (A B : Keyed Node) (left : Nat) (text : Text) (s : Source) : Prop :=
  ∀ d ∈ e.scanned A left text s, ∀ key, d.path.head? = some key →
    Keyed.get? key A = Keyed.get? key B

variable {e} {A B : Keyed Node}

theorem alike_of_agree {ds : List Directive}
    (h : ∀ d ∈ ds, ∀ key, d.path.head? = some key → Keyed.get? key A = Keyed.get? key B) :
    List.Forall₂ (Directive.Alike A B) ds ds :=
  List.forall₂_same.2 fun d hd => ⟨rfl, Node.lookup_eq_of_head (h d hd)⟩

/-- A pass over dictionaries that agree on its directives gives the same text and leaves the same source. -/
theorem substitute_eq_of_agree {left : Nat} {text : Text} {s : Source}
    (h : e.AgreeWhereNamed A B (left + 1) text s) :
    let pass := e.substitute A (Directive.scan text) text s
    let pass' := e.substitute B (Directive.scan text) text s
    pass.text = pass'.text ∧ pass.source = pass'.source ∧
      e.AgreeWhereNamed A B left pass.text pass.source := by
  have halike := alike_of_agree fun d hd => h d (List.mem_append_left _ hd)
  have hdraws : Directive.draws A e.maxRepeat (Directive.scan text) s =
      Directive.draws B e.maxRepeat (Directive.scan text) s := Directive.draws_congr halike s
  refine ⟨?_, ?_, fun d hd => h d (List.mem_append_right _ hd)⟩
  · rw [substitute_text, substitute_text, hdraws]
  · rw [substitute_source, substitute_source, hdraws]

theorem passes_eq_of_agree {left : Nat} {text : Text} {s : Source}
    (h : e.AgreeWhereNamed A B left text s) (done : Nat) :
    (e.passes A left done text s).text = (e.passes B left done text s).text ∧
      (e.passes A left done text s).source = (e.passes B left done text s).source := by
  induction left generalizing text s done with
  | zero => exact ⟨rfl, rfl⟩
  | succ left ih =>
    by_cases hscan : Directive.scan text = []
    · obtain ⟨htext, hsource⟩ := e.passes_of_scan_nil A hscan (left + 1) done s
      obtain ⟨htext', hsource'⟩ := e.passes_of_scan_nil B hscan (left + 1) done s
      exact ⟨htext.trans htext'.symm, hsource.trans hsource'.symm⟩
    · obtain ⟨hpass, hrest, hagree⟩ := substitute_eq_of_agree h
      obtain ⟨htext, hsource⟩ := e.passes_succ A hscan left done s
      obtain ⟨htext', hsource'⟩ := e.passes_succ B hscan left done s
      rw [htext, hsource, htext', hsource', ← hpass, ← hrest]
      exact ih hagree (done + 1)

end Expander

/-- An expansion gives the same text and leaves the same source over any two dictionaries that agree where
its directives name them. So tag documents of other namespaces can be added, left out and changed without
effect on it. -/
theorem run_eq_of_agree_where_named (e : Expander) (prompt : Text) (s : Source) :
    (∀ A B : Keyed Node, e.AgreeWhereNamed A B e.maxPasses prompt s →
      (e.run A prompt s).text = (e.run B prompt s).text ∧
        (e.run A prompt s).source = (e.run B prompt s).source) ∧
    ∀ documents documents' : List TagDocument,
      let A := (Store.load documents).1.namespaces
      let B := (Store.load documents').1.namespaces
      (∀ d ∈ e.scanned A e.maxPasses prompt s, ∀ key, d.path.head? = some key →
        (documents.filter fun document => key = document.ns) =
          documents'.filter fun document => key = document.ns) →
      (e.run A prompt s).text = (e.run B prompt s).text ∧
        (e.run A prompt s).source = (e.run B prompt s).source := by
  have hrun (A B : Keyed Node) (h : e.AgreeWhereNamed A B e.maxPasses prompt s) :=
    Expander.passes_eq_of_agree h 0
  refine ⟨hrun, ?_⟩
  intro documents documents' A B h
  exact hrun A B fun d hd key hkey => Store.get?_load_congr (h d hd key hkey)

/-- A namespace that only a value names, one that is nowhere, and others that differ. -/
theorem run_eq_of_agree_where_named_nested :
    let e : Expander := ⟨3, 100⟩
    let prompt := Text.lit "@a@, @gone@."
    let s := Source.cycle [5]
    let a : TagDocument := ⟨Text.lit "a", Text.lit "a.yml", Text.lit "'one @b:x@'"⟩
    let b : TagDocument := ⟨Text.lit "b", Text.lit "b.yml", Text.lit "x: [red, blue]"⟩
    let documents := [a, ⟨Text.lit "c", Text.lit "c.yml", Text.lit "old"⟩, b]
    let documents' := [⟨Text.lit "d", Text.lit "d.yml", Text.lit "new"⟩, a, b]
    let A := (Store.load documents).1.namespaces
    let B := (Store.load documents').1.namespaces
    (∀ d ∈ e.scanned A e.maxPasses prompt s, ∀ key, d.path.head? = some key →
      (documents.filter fun document => key = document.ns) =
        documents'.filter fun document => key = document.ns) ∧
    e.AgreeWhereNamed A B e.maxPasses prompt s ∧
    (e.run A prompt s).text = (e.run B prompt s).text ∧
    (e.run A prompt s).source = (e.run B prompt s).source ∧
    (e.run A prompt s).text = Text.lit "one red, ." := by
  intro e prompt s a b documents documents' A B
  have hscanned : e.scanned A e.maxPasses prompt s = [⟨Text.lit "@a@", .once, [Text.lit "a"]⟩,
      ⟨Text.lit "@gone@", .once, [Text.lit "gone"]⟩,
      ⟨Text.lit "@b:x@", .once, [Text.lit "b", Text.lit "x"]⟩] := by decide +kernel
  have hsame : ∀ d ∈ e.scanned A e.maxPasses prompt s, ∀ key, d.path.head? = some key →
      (documents.filter fun document => key = document.ns) =
        documents'.filter fun document => key = document.ns := by
    rw [hscanned]
    intro d hd key hkey
    simp only [List.mem_cons, List.not_mem_nil, or_false] at hd
    rcases hd with rfl | rfl | rfl <;> obtain rfl := Option.some.inj hkey <;> decide +kernel
  have hagree : e.AgreeWhereNamed A B e.maxPasses prompt s := fun d hd key hkey =>
    Store.get?_load_congr (hsame d hd key hkey)
  exact ⟨hsame, hagree, ((run_eq_of_agree_where_named e prompt s).1 A B hagree).1,
    ((run_eq_of_agree_where_named e prompt s).2 documents documents' hsame).2, by decide +kernel⟩

end PromptTags
