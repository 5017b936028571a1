import PromptTags.Yaml.Fault
import PromptTags.Yaml.Scalar.Folding

/-!
Scalars without quotes. A plain scalar ends before a colon that is followed by a gap, before a
comment, before a line that is indented too little, and in a flow collection before a sign of it.
-/

namespace PromptTags.Yaml

/-- A scalar that has been read: its text, whether a line break was passed after its last
character, and the place behind it. -/
structure PlainScalar where
  text : Text
  passedBreak : Bool
  after : Cursor
  deriving DecidableEq, Repr

/-- Whether a plain scalar ends before the first character of a text. -/
def plainEnds (inFlow : Bool) : Text → Bool
  | [] => true
  | c :: cs => (c = ':' && atGap cs) || (inFlow && isFlowSign c)

/-- Whether a text starts with a colon that a flow collection does not admit in a plain scalar. -/
def plainClashes (inFlow : Bool) : Text → Bool
  | ':' :: c :: _ => inFlow && (isFlowSign c || c = '?')
  | _ => false

/-- Read on in a plain scalar. `done` holds the characters so far, last one first, and `gap` the
gap behind them; `inGap` tells whether the last character belongs to that gap. Content lies at
column `level` or further right, except in a flow collection. -/
def readPlain (inFlow : Bool) (level : Nat) :
    (done : Text) → Gap → (inGap : Bool) → Text → Mark → Except Fault PlainScalar
  | done, gap, _, [], m => .ok ⟨done.reverse, gap.hasBreak, ⟨[], m⟩⟩
  | done, gap, _, '\r' :: '\n' :: cs, m =>
    readPlain inFlow level done (gap.addBreak '\n') true cs (m.newline 2)
  | done, gap, inGap, c :: cs, m =>
    if isBreak c then
      readPlain inFlow level done (gap.addBreak (breakText c)) true cs (m.newline c.utf8Size)
    else if isBlank c then
      if gap.hasBreak && c = '\t' && m.column < level then .error .plainTab
      else readPlain inFlow level done (gap.addBlank c) true cs (m.past c)
    else if inGap && ((!inFlow && m.column < level) || c = '#' ||
        (m.column = 0 && atDocumentMark (c :: cs))) then
      .ok ⟨done.reverse, gap.hasBreak, ⟨c :: cs, m⟩⟩
    else if plainClashes inFlow (c :: cs) then .error .plainColon
    else if plainEnds inFlow (c :: cs) then .ok ⟨done.reverse, gap.hasBreak, ⟨c :: cs, m⟩⟩
    else readPlain inFlow level (c :: (gap.fold.reverse ++ done)) .none false cs (m.past c)

end PromptTags.Yaml
