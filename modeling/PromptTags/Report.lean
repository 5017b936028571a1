import PromptTags.Dictionary.Store
import PromptTags.Expansion.Request
import PromptTags.Files.Path

/-!
How results are shown: expanded prompts, lists of tag paths, and what was wrong with tag files.
-/

namespace PromptTags

structure CheckReport where
  tagsDir : Path
  files : Nat
  namespaces : Nat
  skipped : List Diagnostic
  deriving Repr

def CheckReport.isClean (r : CheckReport) : Bool := r.skipped.isEmpty

namespace Report

def line (label : String) (text : Text) : Text := label.toList ++ Text.lit ": " ++ text ++ ['\n']

/-- The prompts of an item. Empty ones are not shown. -/
def item (i : Item) : Text :=
  (i.prompts.filter fun p => !p.2.isEmpty).flatMap fun p => line p.1.label p.2

/-- The line above the item with a number. -/
def itemHead (number : Nat) (i : Item) : Text :=
  s!"[{number}] seed {i.seed.toNat}\n".toList

/-- Items with their numbers, from a given one on. -/
def numbered : (number : Nat) → List Item → Text
  | _, [] => []
  | number, i :: is => itemHead number i ++ item i ++ numbered (number + 1) is

/-- An expanded batch: its items, which have numbers if there are several, and the texts that were
recorded before expansion. -/
def expansion (b : Batch) : Text :=
  (match b.items with
    | [] => []
    | [i] => item i
    | items => numbered 1 items) ++
    b.rawPrompts.flatMap fun p => line (String.ofList p.1) p.2

/-- A list of tag paths, each as a directive on a line of its own. -/
def tagList (paths : List Text) : Text :=
  if paths.isEmpty then Text.lit "No tags found"
  else paths.flatMap fun path => marker :: path ++ [marker, '\n']

def skipped (d : Diagnostic) : Text :=
  line s!"skipped {String.ofList d.origin}" d.message.toList

def check (r : CheckReport) : Text :=
  (s!"{r.files} tag file(s) in {String.ofList r.tagsDir}, " ++
    s!"{r.namespaces} namespace(s) loaded\n").toList ++ r.skipped.flatMap skipped

end Report

end PromptTags
