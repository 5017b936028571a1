import PromptTags.Yaml.Event

/-!
The nodes of a document as a tree, still with their tags and styles. Aliases refer to the number
that their anchor had been given when they were read. A document that breaks off is a tree in which
what was open ends in a broken node, so that it can be read up to the point of the fault.
-/

namespace PromptTags.Yaml

inductive Tree where
  | scalar (id : Option Nat) (tag : Option (List UInt8)) (text : Text) (style : ScalarStyle)
  | sequence (id : Option Nat) (tag : Option (List UInt8)) (items : List Tree)
  | mapping (id : Option Nat) (tag : Option (List UInt8)) (entries : List (Tree × Tree))
  | alias (id : Nat)
  /-- Here the document breaks off. -/
  | broken (fault : Fault)
  deriving Repr, Inhabited

/-- A collection whose end has not been read, its content in reverse order. -/
inductive OpenTree where
  | sequence (id : Option Nat) (tag : Option (List UInt8)) (items : List Tree)
  | mapping (id : Option Nat) (tag : Option (List UInt8)) (entries : List (Tree × Tree))
      (key : Option Tree)
  deriving Repr

namespace OpenTree

/-- A node more in a collection. In a mapping, keys and values take turns. -/
def add (t : Tree) : OpenTree → OpenTree
  | sequence id tag items => sequence id tag (t :: items)
  | mapping id tag entries none => mapping id tag entries (some t)
  | mapping id tag entries (some key) => mapping id tag ((key, t) :: entries) none

def close : OpenTree → Tree
  | sequence id tag items => .sequence id tag items.reverse
  | mapping id tag entries _ => .mapping id tag entries.reverse

/-- The collection, broken off where the next node would stand. -/
def breakOff (fault : Fault) : OpenTree → Tree
  | sequence id tag items => .sequence id tag (Tree.broken fault :: items).reverse
  | mapping id tag entries none =>
    .mapping id tag ((.broken fault, .broken fault) :: entries).reverse
  | mapping id tag entries (some key) => .mapping id tag ((key, .broken fault) :: entries).reverse

end OpenTree

/-- A document that is being put together. -/
structure Planting where
  /-- The collections that are open, the innermost first. -/
  opened : List OpenTree
  /-- The outermost node, once it is complete. -/
  root : Option Tree
  /-- The number of each anchor name. -/
  anchors : List (Text × Nat)
  events : Nat
  deriving Repr

namespace Planting

def add (p : Planting) (t : Tree) : Planting :=
  match p.opened with
  | [] => { p with root := some t }
  | o :: opened => { p with opened := o.add t :: opened }

def close (p : Planting) : Planting :=
  match p.opened with
  | [] => p
  | o :: opened => { p with opened }.add o.close

/-- The number for an anchor: as many as there are names so far. A name that is used again gets a
number of its own, but counts once, so that the next new name gets that number too. -/
def anchor (p : Planting) (name : Option Text) : Option Nat × Planting :=
  match name with
  | none => (none, p)
  | some name =>
    let id := p.anchors.length
    (some id, { p with anchors := Keyed.insert name id p.anchors })

def count (p : Planting) : Planting := { p with events := p.events + 1 }

def breakOff (p : Planting) (fault : Fault) : Tree :=
  match p.opened with
  | [] => p.root.getD (.broken fault)
  | o :: opened => opened.foldl (fun t o => (o.add t).breakOff fault) (o.breakOff fault)

end Planting

/-- The first document of a text. -/
structure Document where
  root : Tree
  events : Nat
  /-- What is wrong behind the nodes that have been read. -/
  fault : Option Fault
  deriving Repr

namespace Document

/-- What is wrong behind the end of the first document. -/
def faultBehind : List Event → Option Fault → Option Fault
  | [.streamEnd], _ => none
  | [], fault => some (fault.getD .unfinished)
  | _, _ => some .moreThanOneDocument

/-- Put the nodes of a document together until its end or a fault. A text without a document is read
as a null. -/
def ofEvents (fault : Option Fault) : Planting → List Event → Document
  | p, [] =>
    let fault := fault.getD .unfinished
    ⟨p.breakOff fault, p.events, some fault⟩
  | p, .streamEnd :: _ => ⟨p.root.getD (.scalar none none [] .plain), p.events, none⟩
  | p, .documentEnd :: rest =>
    let fault := faultBehind rest fault
    ⟨p.breakOff (fault.getD .unfinished), p.events, fault⟩
  | p, .documentStart :: rest => ofEvents fault p rest
  | p, .alias name :: rest =>
    match Keyed.get? name p.anchors with
    | some id => ofEvents fault (p.count.add (.alias id)) rest
    | none => ⟨p.breakOff .unknownAnchor, p.events, some .unknownAnchor⟩
  | p, .scalar properties text style :: rest =>
    let (id, p) := p.anchor properties.anchor
    ofEvents fault (p.count.add (.scalar id properties.tag text style)) rest
  | p, .sequenceStart properties :: rest =>
    let (id, p) := p.anchor properties.anchor
    let o := .sequence id properties.tag []
    ofEvents fault { p.count with opened := o :: p.opened } rest
  | p, .mappingStart properties :: rest =>
    let (id, p) := p.anchor properties.anchor
    let o := .mapping id properties.tag [] none
    ofEvents fault { p.count with opened := o :: p.opened } rest
  | p, .sequenceEnd :: rest => ofEvents fault p.count.close rest
  | p, .mappingEnd :: rest => ofEvents fault p.count.close rest

def ofText (text : Text) : Document :=
  let (events, fault) := Event.ofText text
  ofEvents fault ⟨[], none, [], 0⟩ events

end Document

end PromptTags.Yaml
