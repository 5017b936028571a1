import PromptTags.Yaml.Cursor

/-!
Line folding. Blanks between two words of a plain or quoted scalar are kept; as soon as they hold a
line break they are folded: a single break becomes a space, and of more breaks the first is dropped.
-/

namespace PromptTags.Yaml

/-- The gap between two words of a scalar, in reading order. -/
structure Gap where
  /-- Blanks of a gap that stays in one line. -/
  blanks : Text
  /-- Of a gap with line breaks, the first break and the further ones. An escaped break counts as
  an empty first break. -/
  breaks : Option (Text × Text)
  deriving DecidableEq, Repr

namespace Gap

def none : Gap := ⟨[], .none⟩

/-- A blank more. Blanks at the start or the end of a line are dropped. -/
def addBlank (g : Gap) (c : Char) : Gap :=
  match g.breaks with
  | .none => { g with blanks := g.blanks ++ [c] }
  | some _ => g

def addBreak (g : Gap) (c : Char) : Gap :=
  match g.breaks with
  | .none => ⟨[], some ([c], [])⟩
  | some (first, more) => { g with breaks := some (first, more ++ [c]) }

/-- The gap that an escaped line break starts. -/
def escapedBreak : Gap := ⟨[], some ([], [])⟩

def hasBreak (g : Gap) : Bool := g.breaks.isSome

/-- What the gap adds to the scalar. -/
def fold (g : Gap) : Text :=
  match g.breaks with
  | .none => g.blanks
  | some (['\n'], []) => [' ']
  | some (['\n'], more) => more
  | some (first, more) => first ++ more

end Gap

end PromptTags.Yaml
