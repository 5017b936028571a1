import PromptTags.Proofs.Dictionary.Load
import PromptTags.Proofs.Tag.Omission

/-! What becomes of the list entries that a document leaves out. They are reported, each once, if anything of
the document is kept; a document of which nothing is kept is only reported to be empty. -/
namespace PromptTags

/-- Whether a node has anything to be kept: a value, a plain entry of a sequence, or a key. -/
def Yaml.Node.keepsAnything : Yaml.Node → Bool
  | null => false
  | scalar _ => true
  | sequence items => items.any fun item => !item.isCollection
  | mapping entries => !entries.isEmpty

/-- What can be tested of the node of a text holds of some node that the text is read as. -/
theorem Yaml.Node.exists_ofText_of_any (text : Text) (p : Yaml.Node → Bool)
    (h : (Yaml.Node.ofText text).toOption.any p = true) :
    ∃ node, Yaml.Node.ofText text = .ok node ∧ p node = true := by
  cases hread : Yaml.Node.ofText text with
  | error refusal =>
    rw [hread] at h
    cases h
  | ok node =>
    rw [hread] at h
    exact ⟨node, rfl, h⟩

namespace Node

theorem isEmpty_ofYaml {node : Yaml.Node} (h : node.isNull = false) :
    (ofYaml node).1.isEmpty = !node.keepsAnything := by
  cases node with
  | null => cases h
  | scalar text => rfl
  | sequence items =>
    change (plainItems [] 0 items).1.isEmpty = _
    -- the list is empty exactly if every entry is a collection
    rw [values_plainItems, Yaml.Node.keepsAnything, Bool.eq_iff_iff]
    simp [Yaml.Node.plain?_eq_none_iff]
  | mapping entries =>
    change (ofYamlEntries [] entries).1.isEmpty = _
    cases entries <;> rfl

end Node

namespace TagDocument

/-- What is reported of a document that can be read. -/
theorem diagnostics_of_node {d : TagDocument} {node : Yaml.Node}
    (h : Yaml.Node.ofText d.content = .ok node) :
    d.diagnostics =
      if hasContent d.content && node.keepsAnything then
        (Node.ofYaml node).2.map fun o => ⟨d.origin, d.ns, .ofOmission o⟩
      else [⟨d.origin, d.ns, .empty⟩] := by
  rw [diagnostics, read, h]
  cases hasContent d.content with
  | false => rfl
  | true =>
    cases hnull : node.isNull with
    | true =>
      cases node <;> cases hnull
      rfl
    | false =>
      have hempty := Node.isEmpty_ofYaml hnull
      cases hkeeps : node.keepsAnything <;> simp [hkeeps, hnull, hempty]

end TagDocument

namespace Store

/-- The list entries that a document leaves out are reported with its origin, its namespace and their
paths, each once and at the place of the document, provided that some line of it has content and anything of
it is kept. Otherwise nothing but that it is empty is reported of it. -/
theorem load_reports_omissions_if_anything_is_kept {d : TagDocument} {node : Yaml.Node}
    (hread : Yaml.Node.ofText d.content = .ok node) (before after : List TagDocument) :
    ∃ omissions : List Omission,
      omissions.Nodup ∧ (∀ o, o ∈ omissions ↔ node.LeavesOut o.keys o.index) ∧
      (TagDocument.hasContent d.content = true → node.keepsAnything = true →
        (load (before ++ d :: after)).1.diagnostics =
          (load before).1.diagnostics ++
            (omissions.map fun o => ⟨d.origin, d.ns, .shape o.path Omission.message⟩) ++
            (load after).1.diagnostics) ∧
      (TagDocument.hasContent d.content = false ∨ node.keepsAnything = false →
        (load (before ++ d :: after)).1.diagnostics =
          (load before).1.diagnostics ++ [⟨d.origin, d.ns, .empty⟩] ++
            (load after).1.diagnostics) := by
  have hload : (load (before ++ d :: after)).1.diagnostics =
      (load before).1.diagnostics ++ d.diagnostics ++ (load after).1.diagnostics := by
    simp only [diagnostics_load, List.flatMap_append, List.flatMap_cons, List.append_assoc]
  have hown := TagDocument.diagnostics_of_node hread
  refine ⟨(Node.ofYaml node).2, Node.nodup_ofYamlAt [] (Yaml.Node.ordered_ofText hread),
    fun o => Node.mem_ofYaml, ?_, ?_⟩
  · intro hcontent hkeeps
    rw [hcontent, hkeeps] at hown
    rw [hload, hown]
    rfl
  · intro hnothing
    have hcond : (TagDocument.hasContent d.content && node.keepsAnything) = false := by
      rcases hnothing with h | h <;> simp [h]
    rw [hcond] at hown
    rw [hload, hown]
    rfl

/-- An entry that is left out between two that are kept. -/
theorem load_reports_omissions_if_anything_is_kept_inside :
    let d : TagDocument := ⟨Text.lit "p", Text.lit "p.yml", Text.lit "a: [x, [y], z]\n"⟩
    ∃ node, Yaml.Node.ofText d.content = .ok node ∧
      TagDocument.hasContent d.content = true ∧ node.keepsAnything = true ∧
      node.LeavesOut [Text.lit "a"] 1 ∧
      (⟨d.origin, d.ns, .shape (Text.lit "a:1") Omission.message⟩ : Diagnostic) ∈
        (load [d]).1.diagnostics := by
  intro d
  obtain ⟨node, hread, hnode⟩ := Yaml.Node.exists_ofText_of_any d.content
    (fun node => node.keepsAnything &&
      (Node.ofYaml node).2.any fun o => o.keys = [Text.lit "a"] ∧ o.index = 1) (by decide +kernel)
  obtain ⟨hkeeps, hany⟩ := Bool.and_eq_true_iff.1 hnode
  obtain ⟨⟨keys, index⟩, ho, heq⟩ := List.any_eq_true.1 hany
  obtain ⟨rfl, rfl⟩ := of_decide_eq_true heq
  have hcontent : TagDocument.hasContent d.content = true := by decide +kernel
  have hout : node.LeavesOut [Text.lit "a"] 1 := Node.mem_ofYaml.1 ho
  obtain ⟨omissions, -, hmem, hreported, -⟩ :=
    load_reports_omissions_if_anything_is_kept hread [] []
  have hin : (⟨[Text.lit "a"], 1⟩ : Omission) ∈ omissions := (hmem _).2 hout
  refine ⟨node, hread, hcontent, hkeeps, hout, ?_⟩
  rw [show [d] = [] ++ d :: [] from rfl, hreported hcontent hkeeps]
  apply List.mem_append_left
  apply List.mem_append_right
  exact List.mem_map.2 ⟨_, hin, by decide⟩

/-- Of a document with nothing but a collection in a sequence the collection is left out, and that is not
reported. -/
theorem omission_unreported_when_nothing_is_kept :
    let d : TagDocument := ⟨Text.lit "misc", Text.lit "misc.yml", Text.lit "- [a, b]\n"⟩
    ∃ node, Yaml.Node.ofText d.content = .ok node ∧ node.LeavesOut [] 0 ∧
      (load [d]).1.diagnostics = [⟨d.origin, d.ns, .empty⟩] := by
  intro d
  obtain ⟨node, hread, hnode⟩ := Yaml.Node.exists_ofText_of_any d.content
    (fun node => (Node.ofYaml node).2.any fun o => o.keys = [] ∧ o.index = 0) (by decide +kernel)
  obtain ⟨⟨keys, index⟩, ho, heq⟩ := List.any_eq_true.1 hnode
  obtain ⟨rfl, rfl⟩ := of_decide_eq_true heq
  exact ⟨node, hread, Node.mem_ofYaml.1 ho, by decide +kernel⟩

end Store

end PromptTags
