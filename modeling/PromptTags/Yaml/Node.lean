import PromptTags.Text.Keyed
import PromptTags.Yaml.Value

/-!
Values as the library uses them: everything that is not a collection is a text or a null, and a
mapping holds one value per key text, the last one read. Keys have to be plain; a null is the empty
key. A collection as a key is refused as soon as its entry has been read.
-/

namespace PromptTags.Yaml

/-- A value with text keys. -/
inductive Node where
  | null
  | scalar (text : Text)
  | sequence (items : List Node)
  | mapping (entries : List (Text × Node))
  deriving Repr, Inhabited

/-- Why a text gives no node. -/
inductive Refusal where
  | unreadable (fault : Fault)
  | collectionKey
  deriving DecidableEq, Repr

def Refusal.message : Refusal → String
  | unreadable fault => fault.message
  | collectionKey => "mapping keys must be plain values"

namespace Node

def isNull : Node → Bool
  | null => true
  | _ => false

/-- The text of a plain value; a null is the empty text. -/
def plain? : Node → Option Text
  | null => some []
  | scalar text => some text
  | sequence _ => none
  | mapping _ => none

mutual

def ofValue : Value → Except Refusal Node
  | .null => .ok .null
  | .bool true => .ok (.scalar "true".toList)
  | .bool false => .ok (.scalar "false".toList)
  | .int i => .ok (.scalar (Text.ofInt i))
  | .float x => .ok (.scalar x.text)
  | .text t => .ok (.scalar t)
  | .sequence items =>
    match ofItems items with
    | .ok nodes => .ok (.sequence nodes)
    | .error e => .error e
  | .mapping entries =>
    match ofEntries [] entries with
    | .ok nodes => .ok (.mapping nodes)
    | .error e => .error e
  | .broken fault => .error (.unreadable fault)

def ofItems : List Value → Except Refusal (List Node)
  | [] => .ok []
  | v :: vs =>
    match ofValue v with
    | .error e => .error e
    | .ok node =>
      match ofItems vs with
      | .error e => .error e
      | .ok nodes => .ok (node :: nodes)

/-- The nodes of further entries, put over those read before. -/
def ofEntries (before : Keyed Node) : List (Value × Value) → Except Refusal (Keyed Node)
  | [] => .ok before
  | (k, v) :: rest =>
    match ofValue k with
    | .error e => .error e
    | .ok key =>
      match ofValue v with
      | .error e => .error e
      | .ok node =>
        match key.plain? with
        | none => .error .collectionKey
        | some text => ofEntries (Keyed.insert text node before) rest

end

end Node

/-- The anchored nodes of a tree by number. -/
abbrev Anchors := List (Nat × Tree)

mutual

/-- The anchored nodes of a tree in reading order, put in front of those before. -/
def Tree.anchored : Tree → Anchors → Anchors
  | t@(.scalar (some id) _ _ _), before => (id, t) :: before
  | .sequence id tag items, before =>
    Tree.anchoredItems items (match id with
      | some n => (n, .sequence id tag items) :: before
      | none => before)
  | .mapping id tag entries, before =>
    Tree.anchoredEntries entries (match id with
      | some n => (n, .mapping id tag entries) :: before
      | none => before)
  | _, before => before

def Tree.anchoredItems : List Tree → Anchors → Anchors
  | [], before => before
  | t :: ts, before => Tree.anchoredItems ts (Tree.anchored t before)

def Tree.anchoredEntries : List (Tree × Tree) → Anchors → Anchors
  | [], before => before
  | (k, t) :: ts, before => Tree.anchoredEntries ts (Tree.anchored t (Tree.anchored k before))

end

namespace Document

/-- The value of a document. An alias stands for the last node with the number of its anchor. -/
def value (d : Document) : Value :=
  let anchors := d.root.anchored []
  let find id := (anchors.lookup id).getD (.broken .unknownAnchor)
  (Value.ofTree find Value.maxDepth d.root
    ⟨Value.aliasesPerEvent * d.events, false⟩).1

end Document

/-- Read a text that holds one document. A fault behind the document counts only once all before it
has been read. -/
def Node.ofText (text : Text) : Except Refusal Node :=
  let document := Document.ofText text
  match Node.ofValue document.value with
  | .error e => .error e
  | .ok node =>
    match document.fault with
    | some fault => .error (.unreadable fault)
    | none => .ok node

end PromptTags.Yaml
