import PromptTags.Toml.Document
import PromptTags.Workspace.Config

/-!
The stored form of a configuration: a TOML document with one line for each setting. Reading takes
the standard value for a setting that is missing and passes over keys it does not know.
-/

namespace PromptTags.Config

/-! ### Writing -/

/-- Integers of the format lie below this bound. -/
def storableBound : Nat := 0x8000000000000000

def line (setting : Setting) (value : Text) : Text :=
  setting.key.toList ++ Text.lit " = " ++ value ++ ['\n']

/-- The stored form of a configuration. A directory that is not set has no line, and a cap on passes
that is too great for the format cannot be stored. -/
def stored (c : Config) : Except ConfigFault Text :=
  if storableBound ≤ c.maxPasses.toNat then .error .tooGreat
  else
    let tagsDir := match c.tagsDir with
      | none => []
      | some dir => line .tagsDir (Toml.writeString dir)
    .ok (tagsDir ++ line .saveRawPrompt (c.get .saveRawPrompt) ++
      line .maxPasses (c.get .maxPasses) ++ line .maxRepeat (c.get .maxRepeat) ++
      line .namespaceKeying (Toml.writeString c.keying.name) ++ line .debug (c.get .debug))

/-! ### Reading -/

def field {α : Type} (setting : Setting) (standard : α) (ofValue : Toml.Value → Option α)
    (entries : Toml.Entries) : Except ConfigFault α :=
  match Toml.Entries.get? setting.key.toList entries with
  | none => .ok standard
  | some value =>
    match ofValue value with
    | some a => .ok a
    | none => .error (.wrongType setting)

def stringOf? : Toml.Value → Option Text
  | .string t => some t
  | _ => none

def booleanOf? : Toml.Value → Option Bool
  | .boolean b => some b
  | _ => none

/-- An integer from zero up to but not including `bound`. -/
def countOf? (bound : Nat) : Toml.Value → Option Nat
  | .integer i => if 0 ≤ i ∧ i < bound then some i.toNat else none
  | _ => none

/-- The keying with a name; names count letter by letter here. -/
def keyingNamed? (name : Text) : Option Keying :=
  [Keying.stem, Keying.relativePath].find? fun keying => keying.name = name

/-- Whether a value is an array or a table without anything in it. -/
def isHollow : Toml.Value → Bool
  | .array items => items.isEmpty
  | .tables items => items.isEmpty
  | .table _ entries => entries.isEmpty
  | _ => false

/-- A keying: its name, or a table with nothing but its name, under which there is nothing. -/
def keyingOf? : Toml.Value → Option Keying
  | .string name => keyingNamed? name
  | .table _ [(name, value)] => if isHollow value then keyingNamed? name else none
  | _ => none

def ofEntries (entries : Toml.Entries) : Except ConfigFault Config := do
  let tagsDir ← field .tagsDir none (fun v => (stringOf? v).map some) entries
  let saveRawPrompt ← field .saveRawPrompt standard.saveRawPrompt booleanOf? entries
  let maxPasses ← field .maxPasses standard.maxPasses
    (fun v => (countOf? UInt64.size v).map Nat.toUInt64) entries
  let maxRepeat ← field .maxRepeat standard.maxRepeat
    (fun v => (countOf? UInt32.size v).map Nat.toUInt32) entries
  let keying ← field .namespaceKeying standard.keying keyingOf? entries
  let debug ← field .debug standard.debug booleanOf? entries
  return ⟨tagsDir, saveRawPrompt, maxPasses, maxRepeat, keying, debug⟩

def ofStored (text : Text) : Except ConfigFault Config :=
  match Toml.Entries.ofText text with
  | none => .error .notDocument
  | some entries => ofEntries entries

end PromptTags.Config
