import PromptTags.Proofs.Text.Parts
import PromptTags.Proofs.Workspace.TagFiles

/-! Namespaces of tag files. By its path a tag file gets its path without the extension, and by its file name the last
part of that; so two files meet in a namespace only if they differ in their extensions, or in where they lie. -/
namespace PromptTags.Keying

variable {p q : Path} {names names' : List Text}

section Cut

variable {dirs dirs' : List Text} {base base' ext ext' : Text}

end Cut

end PromptTags.Keying
