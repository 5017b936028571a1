import PromptTags.Files.Path

/-!
Namespaces of tag files: the file name without its extension, or the path below the tags directory
without the extension.
-/

namespace PromptTags

/-- How the path of a tag file becomes its namespace. -/
inductive Keying where
  /-- By the file name alone. -/
  | stem
  /-- By the path below the tags directory. -/
  | relativePath
  deriving DecidableEq, Repr

namespace Keying

def name : Keying → Text
  | stem => Text.lit "stem"
  | relativePath => Text.lit "relative-path"

/-- The keying a word stands for, whatever the case of its letters. No letter outside of ASCII has a
small form within these words. -/
def ofWord? (word : Text) : Option Keying :=
  let word := Text.lower word
  if word = Text.lit "stem" then some stem
  else if Text.isAny ["relative-path", "relative_path", "path"] word then some relativePath
  else none

def unknownMessage (word : Text) : String :=
  s!"Invalid namespace_keying: '{String.ofList word}'. Valid values are: stem, relative-path"

def componentText : Path.Component → Text
  | .root => ['/']
  | .here => ['.']
  | .up => ['.', '.']
  | .name text => text

/-- The namespace of a file, given its path below the tags directory. -/
def namespace? (keying : Keying) (p : Path) : Option Text :=
  match Path.fileStem? p with
  | none => none
  | some base =>
    match keying with
    | .stem => some base
    | .relativePath =>
      some (Text.join ['/'] (((Path.components p).dropLast.map componentText) ++ [base]))

end Keying

end PromptTags
