import PromptTags.Tag.Reading
import PromptTags.Text.Blank

/-!
Tag documents: YAML texts, each to be registered under a namespace. A document is skipped if it
cannot be read or holds nothing; list entries that are no plain values are reported and left out.
-/

namespace PromptTags

/-- A text that is to be read as a tag tree. -/
structure TagDocument where
  /-- The key its tree is registered under. -/
  ns : Text
  /-- Where the text comes from, for reports only. -/
  origin : Text
  content : Text
  deriving DecidableEq, Repr

inductive Problem where
  /-- The text is no YAML document; `collectionKey` holds if that is because of a mapping key. -/
  | unparsable (message : String) (collectionKey : Bool)
  | empty
  | shape (path : Text) (message : String)
  deriving DecidableEq, Repr

namespace Problem

def message (ns : Text) : Problem → String
  | unparsable message _ => s!"YAML parse error in '{String.ofList ns}': {message}"
  | empty => s!"'{String.ofList ns}' is empty"
  | shape path message =>
    s!"Unsupported structure in '{String.ofList ns}' at '{String.ofList path}': {message}"

def ofRefusal (refusal : Yaml.Refusal) : Problem :=
  unparsable refusal.message (refusal = .collectionKey)

def ofOmission (o : Omission) : Problem := shape o.path Omission.message

end Problem

/-- A problem with the document it was found in. -/
structure Diagnostic where
  origin : Text
  ns : Text
  problem : Problem
  deriving DecidableEq, Repr

def Diagnostic.message (d : Diagnostic) : String := d.problem.message d.ns

namespace TagDocument

/-- Whether a line is more than white space and a comment. -/
def lineHasContent (line : Text) : Bool :=
  match Text.trim line with
  | [] => false
  | c :: _ => c ≠ '#'

def hasContent (content : Text) : Bool := (Text.lines content).any lineHasContent

/-- The tree of a document and the problems of its list entries, or why it is skipped. -/
def read (d : TagDocument) : Except Problem (Node × List Problem) :=
  if !hasContent d.content then .error .empty
  else match Yaml.Node.ofText d.content with
    | .error refusal => .error (.ofRefusal refusal)
    | .ok node =>
      if node.isNull then .error .empty
      else
        let (root, omissions) := Node.ofYaml node
        if root.isEmpty then .error .empty else .ok (root, omissions.map .ofOmission)

end TagDocument

end PromptTags
