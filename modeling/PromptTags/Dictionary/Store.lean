import PromptTags.Dictionary.Document
import PromptTags.Log

/-!
The tag dictionary: trees under namespaces, built from documents in order. A later document replaces
an earlier one of the same namespace, unless it is skipped.
-/

namespace PromptTags

/-- Trees under namespaces, and what was wrong with the documents they were read from. -/
structure Store where
  namespaces : Keyed Node
  diagnostics : List Diagnostic
  deriving Repr

namespace Store

def empty : Store := ⟨[], []⟩

def ofNamespaces (namespaces : Keyed Node) : Store := ⟨namespaces, []⟩

/-- The store with one more document, and what is logged of it. -/
def addDocument (store : Store) (d : TagDocument) : Store × Log :=
  let origin := String.ofList d.origin
  match d.read with
  | .ok (root, problems) =>
    let found := problems.map fun p => (⟨d.origin, d.ns, p⟩ : Diagnostic)
    let replaced : Log :=
      if (Keyed.get? d.ns store.namespaces).isSome then
        .warn s!"{origin} replaces previously loaded namespace '{String.ofList d.ns}'"
      else []
    (⟨Keyed.insert d.ns root store.namespaces, store.diagnostics ++ found⟩,
      (found.flatMap fun p => Log.warn s!"{origin}: {p.message}") ++ replaced)
  | .error problem =>
    let found : Diagnostic := ⟨d.origin, d.ns, problem⟩
    ({ store with diagnostics := store.diagnostics ++ [found] },
      .warn s!"Skipping {origin}: {found.message}")

def addAll (store : Store) : List TagDocument → Store × Log
  | [] => (store, [])
  | d :: ds =>
    let (store, log) := store.addDocument d
    let (store, more) := store.addAll ds
    (store, log ++ more)

def load (documents : List TagDocument) : Store × Log :=
  let (store, log) := empty.addAll documents
  (store, log ++ .info (s!"Loaded {store.namespaces.length} tag namespace(s), " ++
    s!"skipped {store.diagnostics.length}"))

end Store

end PromptTags
