import PromptTags.Text.Numeral
import PromptTags.Yaml.Fault
import PromptTags.Yaml.Cursor

/-!
Block scalars, literal or folded. A header tells how the line breaks at the end are treated and may
fix the indentation; otherwise the first line that is not empty does. Folding joins two neighbouring
lines by a space unless one of them starts with a blank.
-/

namespace PromptTags.Yaml

/-- What happens to the line breaks at the end of a block scalar. -/
inductive Chomping where
  /-- One is kept. -/
  | clip
  /-- None is kept. -/
  | strip
  /-- All are kept. -/
  | keep
  deriving DecidableEq, Repr

/-- The header of a block scalar: the treatment of its end, and its indentation if it is given. -/
structure BlockHeader where
  chomping : Chomping
  increment : Option Nat
  deriving DecidableEq, Repr

/-- The treatment of the end that a sign stands for. -/
def Chomping.ofSign? (c : Char) : Option Chomping :=
  if c = '+' then some .keep else if c = '-' then some .strip else none

def readIncrement : Text → Except Fault (Option Nat × Text)
  | [] => .ok (none, [])
  | c :: cs =>
    if c = '0' then .error .blockHeaderZero
    else if c.isDigit then .ok (some (Text.digitValue c), cs)
    else .ok (none, c :: cs)

def readChomping : Text → Option Chomping × Text
  | [] => (none, [])
  | c :: cs =>
    match Chomping.ofSign? c with
    | some chomping => (some chomping, cs)
    | none => (none, c :: cs)

/-- Read the two parts of a header in either order. -/
def readBlockHeader (t : Text) : Except Fault (BlockHeader × Text) := do
  match readChomping t with
  | (some chomping, t) =>
    let (increment, t) ← readIncrement t
    return (⟨chomping, increment⟩, t)
  | (none, t) =>
    match ← readIncrement t with
    | (none, t) => return (⟨.clip, none⟩, t)
    | (increment, t) =>
      let (chomping, t) := readChomping t
      return (⟨chomping.getD .clip, increment⟩, t)

structure BlockContent where
  /-- The text so far, last character first. -/
  done : Text
  /-- The break that ended the last line with content. -/
  lastBreak : Text
  /-- The breaks of the empty lines since. -/
  emptyLines : Text
  /-- Whether the last line with content started with a blank. -/
  startedBlank : Bool
  deriving DecidableEq, Repr

namespace BlockContent

def empty : BlockContent := ⟨[], [], [], false⟩

def emptyLine (b : BlockContent) (c : Char) : BlockContent :=
  { b with emptyLines := b.emptyLines ++ [c] }

/-- The breaks before a line, joined to the text: a folded scalar turns a break between two lines
into a space, or drops it when empty lines follow it. -/
def startLine (literal blank : Bool) (b : BlockContent) : BlockContent :=
  let before :=
    if !literal && b.lastBreak = ['\n'] && !b.startedBlank && !blank then
      if b.emptyLines.isEmpty then [' '] else []
    else b.lastBreak
  ⟨b.emptyLines.reverse ++ (before.reverse ++ b.done), [], [], blank⟩

def add (b : BlockContent) (c : Char) : BlockContent := { b with done := c :: b.done }

def finish (chomping : Chomping) (b : BlockContent) : Text :=
  match chomping with
  | .strip => b.done.reverse
  | .clip => b.done.reverse ++ b.lastBreak
  | .keep => b.done.reverse ++ b.lastBreak ++ b.emptyLines

end BlockContent

inductive BlockState where
  /-- In the indentation of a line, at an indentation of the scalar that is known. -/
  | margin (indent : Nat)
  /-- In the indentation of a line before the first one with content; `widest` is the largest
  indentation so far. -/
  | search (widest : Nat)
  /-- In the content of a line. -/
  | line (indent : Nat)
  deriving DecidableEq, Repr

/-- Read on in a block scalar. `least` is the least indentation that it may have if the header
gives none. Gives what was read and the place behind it. -/
def readBlock (literal : Bool) (least : Nat) :
    BlockContent → BlockState → Text → Mark → Except Fault (BlockContent × Cursor)
  | b, _, [], m => .ok (b, ⟨[], m⟩)
  | b, .line indent, '\r' :: '\n' :: cs, m =>
    readBlock literal least { b with lastBreak := ['\n'] } (.margin indent) cs (m.newline 2)
  | b, .line indent, c :: cs, m =>
    if isBreak c then
      readBlock literal least { b with lastBreak := [breakText c] } (.margin indent) cs
        (m.newline c.utf8Size)
    else readBlock literal least (b.add c) (.line indent) cs (m.past c)
  | b, .margin indent, '\r' :: '\n' :: cs, m =>
    readBlock literal least (b.emptyLine '\n') (.margin indent) cs (m.newline 2)
  | b, .margin indent, c :: cs, m =>
    if m.column < indent && c = ' ' then
      readBlock literal least b (.margin indent) cs (m.past c)
    else if m.column < indent && c = '\t' then .error .blockTab
    else if isBreak c then
      readBlock literal least (b.emptyLine (breakText c)) (.margin indent) cs (m.newline c.utf8Size)
    else if m.column = indent then
      readBlock literal least ((b.startLine literal (isBlank c)).add c) (.line indent) cs
        (m.past c)
    else .ok (b, ⟨c :: cs, m⟩)
  | b, .search widest, '\r' :: '\n' :: cs, m =>
    readBlock literal least (b.emptyLine '\n') (.search (max widest m.column)) cs (m.newline 2)
  | b, .search widest, c :: cs, m =>
    if c = ' ' then readBlock literal least b (.search widest) cs (m.past c)
    else if c = '\t' then .error .blockTab
    else if isBreak c then
      readBlock literal least (b.emptyLine (breakText c)) (.search (max widest m.column)) cs
        (m.newline c.utf8Size)
    else
      let indent := max (max widest m.column) least
      if m.column = indent then
        readBlock literal least ((b.startLine literal (isBlank c)).add c) (.line indent) cs
          (m.past c)
      else .ok (b, ⟨c :: cs, m⟩)

end PromptTags.Yaml
