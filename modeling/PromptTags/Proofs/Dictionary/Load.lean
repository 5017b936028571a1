import PromptTags.Proofs.Dictionary.Ordered

/-! Loading documents. What stands under a namespace is the tree of the last document of that namespace that
could be read, and depends on the documents of the namespace alone. What is reported is what every document
gives cause for, in the order of the documents. -/
namespace PromptTags

namespace Problem

/-- Whether a problem keeps its document out of the dictionary. -/
def isFatal : Problem → Bool
  | unparsable _ _ => true
  | empty => true
  | shape _ _ => false

@[simp] theorem isFatal_ofRefusal (refusal : Yaml.Refusal) : (ofRefusal refusal).isFatal = true := rfl

@[simp] theorem isFatal_ofOmission (o : Omission) : (ofOmission o).isFatal = false := rfl

end Problem

namespace TagDocument

/-- The tree a document is registered with, if it is. -/
def root? (d : TagDocument) : Option Node :=
  match d.read with
  | .ok (root, _) => some root
  | .error _ => none

def diagnostics (d : TagDocument) : List Diagnostic :=
  match d.read with
  | .ok (_, problems) => problems.map fun p => ⟨d.origin, d.ns, p⟩
  | .error problem => [⟨d.origin, d.ns, problem⟩]

/-- A document gives a tree that is not empty, with the list entries it leaves out, or it is refused. -/
theorem read_cases (d : TagDocument) :
    (∃ root, ∃ omissions : List Omission, d.read = .ok (root, omissions.map .ofOmission) ∧ root.isEmpty = false) ∨
      ∃ problem, d.read = .error problem ∧ problem.isFatal = true := by
  simp only [read]
  split
  · exact .inr ⟨_, rfl, rfl⟩
  · split
    · exact .inr ⟨_, rfl, rfl⟩
    · next node _ =>
      split
      · exact .inr ⟨_, rfl, rfl⟩
      · cases hempty : (Node.ofYaml node).1.isEmpty with
        | true => exact .inr ⟨_, rfl, rfl⟩
        | false => exact .inl ⟨_, _, rfl, hempty⟩

theorem isEmpty_of_root? {d : TagDocument} {root : Node} (h : d.root? = some root) :
    root.isEmpty = false := by
  rcases d.read_cases with ⟨root', omissions, hread, hroot⟩ | ⟨problem, hread, -⟩
  · rw [root?, hread] at h
    cases h
    exact hroot
  · rw [root?, hread] at h
    cases h

/-- Of a document that is registered only left out entries are reported, and of any other one problem only,
which is why it is not. -/
theorem diagnostics_cases (d : TagDocument) :
    (d.root?.isSome = true ∧ ∀ x ∈ d.diagnostics, x.problem.isFatal = false) ∨
      (d.root? = none ∧ ∃ x, d.diagnostics = [x] ∧ x.problem.isFatal = true) := by
  rcases d.read_cases with ⟨root, omissions, hread, -⟩ | ⟨problem, hread, hfatal⟩
  · refine .inl ⟨by simp [root?, hread], ?_⟩
    simp [diagnostics, hread]
  · exact .inr ⟨by simp [root?, hread], ⟨d.origin, d.ns, problem⟩, by simp [diagnostics, hread], hfatal⟩

end TagDocument

namespace Store

variable {key : Text}

/-- The tree of the last document of a namespace that can be read. -/
def lastRoot (key : Text) (documents : List TagDocument) : Option Node :=
  ((documents.filter fun d => key = d.ns).filterMap TagDocument.root?).getLast?

@[simp] theorem lastRoot_nil : lastRoot key [] = none := rfl

theorem lastRoot_append (documents more : List TagDocument) :
    lastRoot key (documents ++ more) = (lastRoot key more).or (lastRoot key documents) := by
  simp only [lastRoot, List.filter_append, List.filterMap_append, List.getLast?_append]

theorem lastRoot_singleton (d : TagDocument) :
    lastRoot key [d] = if key = d.ns then d.root? else none := by
  by_cases h : key = d.ns
  · cases hroot : d.root? <;> simp [lastRoot, h, hroot]
  · simp [lastRoot, h]

theorem exists_of_lastRoot {documents : List TagDocument} {root : Node}
    (h : lastRoot key documents = some root) : ∃ d ∈ documents, d.root? = some root := by
  obtain ⟨d, hd, hroot⟩ := List.mem_filterMap.1 (List.mem_of_getLast? h)
  exact ⟨d, (List.mem_filter.1 hd).1, hroot⟩

/-- Among documents of different namespaces it does not matter which one comes last. -/
theorem lastRoot_perm {documents documents' : List TagDocument}
    (hdistinct : (documents.map TagDocument.ns).Nodup) (h : documents.Perm documents') :
    lastRoot key documents = lastRoot key documents' := by
  have hpairs (ds : List TagDocument) (hds : (ds.map TagDocument.ns).Nodup) :
      (ds.filter fun d => key = d.ns).Pairwise fun d d' => d.ns ≠ d'.ns :=
    (List.pairwise_map.1 hds).filter _
  have hdistinct' := (h.map TagDocument.ns).nodup_iff.1 hdistinct
  -- there is at most one document of the namespace, and so one order of them
  have hsame : (documents.filter fun d => key = d.ns) = documents'.filter fun d => key = d.ns := by
    refine (h.filter _).eq_of_pairwise ?_ (hpairs _ hdistinct) (hpairs _ hdistinct')
    intro d d' hd hd' hne
    have hkey : key = d.ns := by simpa using (List.mem_filter.1 hd).2
    have hkey' : key = d'.ns := by simpa using (List.mem_filter.1 hd').2
    exact absurd (hkey.symm.trans hkey') hne
  rw [lastRoot, lastRoot, hsame]

theorem get?_addDocument (store : Store) (d : TagDocument) :
    Keyed.get? key (store.addDocument d).1.namespaces =
      (lastRoot key [d]).or (Keyed.get? key store.namespaces) := by
  rw [addDocument, lastRoot_singleton, TagDocument.root?]
  cases d.read with
  | ok result =>
    change Keyed.get? key (Keyed.insert d.ns result.1 store.namespaces) = _
    rw [Keyed.get?_insert]
    split <;> rfl
  | error problem => simp

theorem diagnostics_addDocument (store : Store) (d : TagDocument) :
    (store.addDocument d).1.diagnostics = store.diagnostics ++ d.diagnostics := by
  rw [addDocument, TagDocument.diagnostics]
  cases d.read <;> rfl

theorem addAll_cons (store : Store) (d : TagDocument) (ds : List TagDocument) :
    (store.addAll (d :: ds)).1 = ((store.addDocument d).1.addAll ds).1 := rfl

theorem get?_addAll (store : Store) (documents : List TagDocument) :
    Keyed.get? key (store.addAll documents).1.namespaces =
      (lastRoot key documents).or (Keyed.get? key store.namespaces) := by
  induction documents generalizing store with
  | nil => simp [addAll]
  | cons d ds ih =>
    rw [addAll_cons, ih, get?_addDocument, ← Option.or_assoc, ← lastRoot_append,
      List.singleton_append]

theorem diagnostics_addAll (store : Store) (documents : List TagDocument) :
    (store.addAll documents).1.diagnostics =
      store.diagnostics ++ documents.flatMap TagDocument.diagnostics := by
  induction documents generalizing store with
  | nil => simp [addAll]
  | cons d ds ih =>
    rw [addAll_cons, ih, diagnostics_addDocument, List.flatMap_cons, List.append_assoc]

theorem get?_load (documents : List TagDocument) :
    Keyed.get? key (load documents).1.namespaces = lastRoot key documents := by
  change Keyed.get? key (empty.addAll documents).1.namespaces = _
  rw [get?_addAll]
  simp [empty, Keyed.get?]

theorem diagnostics_load (documents : List TagDocument) :
    (load documents).1.diagnostics = documents.flatMap TagDocument.diagnostics :=
  diagnostics_addAll empty documents

/-- Two lists with the same documents of a namespace, in the same order, are loaded to the same tree there
or to none. -/
theorem get?_load_congr {documents documents' : List TagDocument}
    (h : (documents.filter fun d => key = d.ns) = documents'.filter fun d => key = d.ns) :
    Keyed.get? key (load documents).1.namespaces = Keyed.get? key (load documents').1.namespaces := by
  rw [get?_load, get?_load, lastRoot, lastRoot, h]

/-- Every document is either registered or has its fatal problem reported. -/
theorem length_eq_countP_add_countP (documents : List TagDocument) :
    documents.length = documents.countP (fun d => d.root?.isSome) +
      (documents.flatMap TagDocument.diagnostics).countP fun x => x.problem.isFatal := by
  induction documents with
  | nil => rfl
  | cons d ds ih =>
    rw [List.flatMap_cons, List.countP_append, List.countP_cons, List.length_cons, ih]
    rcases d.diagnostics_cases with ⟨hroot, hshape⟩ | ⟨hroot, x, hx, hfatal⟩
    · have hnone : (d.diagnostics.countP fun x => x.problem.isFatal) = 0 := by
        rw [List.countP_eq_zero]
        intro x hx
        simp [hshape x hx]
      rw [hnone, if_pos hroot]
      omega
    · rw [hx, List.countP_singleton, if_pos hfatal, hroot]
      simp only [Option.isSome_none, Bool.false_eq_true, if_false]
      omega

/-- Loading keeps the last good document of every namespace, and reports of all documents in order. So one
list loaded after another goes over it, and documents of different namespaces may come in any order. -/
theorem load_keeps_last_good_documents (documents : List TagDocument) :
    let store := (load documents).1
    (∀ key, Keyed.get? key store.namespaces = lastRoot key documents) ∧
    (∀ entry ∈ store.namespaces, entry.2.isEmpty = false) ∧
    store.diagnostics = documents.flatMap TagDocument.diagnostics ∧
    (∀ d ∈ documents,
      (d.root?.isSome = true ∧ ∀ x ∈ d.diagnostics, x.problem.isFatal = false) ∨
        (d.root? = none ∧ ∃ x, d.diagnostics = [x] ∧ x.problem.isFatal = true)) ∧
    documents.length = documents.countP (fun d => d.root?.isSome) +
      store.diagnostics.countP (fun x => x.problem.isFatal) ∧
    (∀ more,
      (∀ key, Keyed.get? key (load (documents ++ more)).1.namespaces =
        (Keyed.get? key (load more).1.namespaces).or (Keyed.get? key store.namespaces)) ∧
      (load (documents ++ more)).1.diagnostics =
        store.diagnostics ++ (load more).1.diagnostics) ∧
    ((documents.map TagDocument.ns).Nodup → ∀ documents', documents.Perm documents' →
      (load documents').1.namespaces = store.namespaces) := by
  intro store
  have hsorted (ds : List TagDocument) : Keyed.Sorted (load ds).1.namespaces :=
    (Node.ordered_map.1 (ordered_load ds)).1
  refine ⟨fun key => get?_load documents, ?_, diagnostics_load documents,
    fun d _ => d.diagnostics_cases, ?_, ?_, ?_⟩
  · intro entry hentry
    have hget := Keyed.get?_of_mem (hsorted documents) hentry
    rw [get?_load] at hget
    obtain ⟨d, -, hroot⟩ := exists_of_lastRoot hget
    exact TagDocument.isEmpty_of_root? hroot
  · rw [diagnostics_load]
    exact length_eq_countP_add_countP documents
  · intro more
    constructor
    · intro key
      rw [get?_load, get?_load, get?_load, lastRoot_append]
    · rw [diagnostics_load, diagnostics_load, diagnostics_load, List.flatMap_append]
  · intro hdistinct documents' hperm
    apply Keyed.ext_of_sorted (hsorted documents') (hsorted documents)
    intro key
    rw [get?_load, get?_load, lastRoot_perm hdistinct hperm]

/-- A document that is refused before or after one with a list entry left out. -/
theorem load_keeps_last_good_documents_reordered :
    let broken : TagDocument := ⟨Text.lit "a", Text.lit "a.yml", Text.lit "[blue"⟩
    let other : TagDocument := ⟨Text.lit "b", Text.lit "b.yml", Text.lit "[[c], d]"⟩
    ([broken, other].map TagDocument.ns).Nodup ∧
    (load [other, broken]).1.namespaces = (load [broken, other]).1.namespaces ∧
    (load [broken, other]).1.diagnostics.map (fun x => x.problem.isFatal) = [true, false] := by
  intro broken other
  have hdistinct : ([broken, other].map TagDocument.ns).Nodup := by decide
  exact ⟨hdistinct, (load_keeps_last_good_documents [broken, other]).2.2.2.2.2.2 hdistinct _
    (List.Perm.swap other broken []), by decide +kernel⟩

end Store

end PromptTags
