import PromptTags.Directive.Scan
import PromptTags.Tag.Pick

/-!
Expanding prompts. In one pass the directives of a text are found, and for each in turn its values
are drawn and put in place of the first occurrence of its text. Passes follow each other until a
pass would find no directive or the cap on passes is reached; what is left then stays as it is.
-/

namespace PromptTags

/-- What an expansion gives: the text, the source that is left, and what was logged. -/
structure Expansion where
  text : Text
  source : Source
  log : Log

def valueSeparator : Text := [',', ' ']

namespace Directive

/-- Draw `n` values for a directive. A resolution that fails gives the empty value. -/
def values (namespaces : Keyed Node) (d : Directive) :
    Nat → Source → List Text × Source × Log
  | 0, s => ([], s, [])
  | n + 1, s =>
    match Node.resolve namespaces d.path s with
    | (.ok value, s) =>
      let (more, s, log) := values namespaces d n s
      (value :: more, s, log)
    | (.error e, s) =>
      let (more, s, log) := values namespaces d n s
      ([] :: more, s,
        .warn s!"Could not resolve {String.ofList d.raw}: {e.message}" ++ log)

/-- The text a directive expands to: a number of values within its range, clamped to `maxRepeat`. -/
def expand (namespaces : Keyed Node) (maxRepeat : Nat) (d : Directive) (s : Source) : Expansion :=
  let notice : Log :=
    if maxRepeat < d.range.max then
      .warn (s!"{String.ofList d.raw} asks for up to {d.range.max} values, " ++
        s!"limiting to {maxRepeat}")
    else []
  let hi := Nat.min d.range.max maxRepeat
  let (n, s) := s.between (Nat.min d.range.min hi) hi
  let (drawn, s, log) := values namespaces d n s
  ⟨Text.join valueSeparator drawn, s, notice ++ log⟩

end Directive

/-- How far an expansion may go. -/
structure Expander where
  /-- The cap on passes over one prompt. -/
  maxPasses : Nat
  /-- The most values one directive may draw. -/
  maxRepeat : Nat
  deriving DecidableEq, Repr

namespace Expander

def defaultMaxPasses : Nat := 100

/-- The most values of a directive unless another number is asked for. -/
def defaultMaxRepeat : Nat := 100

/-- Expand the given directives one after the other, each at its first occurrence in the text. -/
def substitute (e : Expander) (namespaces : Keyed Node) :
    List Directive → Text → Source → Expansion
  | [], text, s => ⟨text, s, []⟩
  | d :: ds, text, s =>
    let value := d.expand namespaces e.maxRepeat s
    let after := substitute e namespaces ds (Text.replaceFirst d.raw value.text text) value.source
    { after with log := value.log ++ after.log }

/-- What is logged when no pass follows any more. -/
def closingLog (e : Expander) (done : Nat) (text : Text) : Log :=
  if done = e.maxPasses then
    Directive.scanLog text ++
      if Directive.scan text = [] then .debug s!"Expanded prompt in {done} pass(es)"
      else .debug s!"Stopped after {e.maxPasses} passes with directives remaining"
  else .debug s!"Expanded prompt in {done} pass(es)"

/-- Go on with at most `left` passes, when `done` passes have been made. -/
def passes (e : Expander) (namespaces : Keyed Node) :
    (left done : Nat) → Text → Source → Expansion
  | 0, done, text, s => ⟨text, s, e.closingLog done text⟩
  | left + 1, done, text, s =>
    match Directive.scan text with
    | [] => ⟨text, s, e.closingLog done text⟩
    | d :: ds =>
      let pass := e.substitute namespaces (d :: ds) text s
      let after := passes e namespaces left (done + 1) pass.text pass.source
      { after with log := Directive.scanLog text ++ pass.log ++ after.log }

/-- Expand a prompt, drawing every choice from the source. -/
def run (e : Expander) (namespaces : Keyed Node) (prompt : Text) (s : Source) : Expansion :=
  e.passes namespaces e.maxPasses 0 prompt s

/-- Expand a prompt with the source a seed stands for. -/
def expand (e : Expander) (namespaces : Keyed Node) (prompt : Text) (seed : UInt64) : Expansion :=
  e.run namespaces prompt (.ofSeed seed)

end Expander

end PromptTags
