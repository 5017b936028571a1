import PromptTags.Expansion.Expander

/-!
Requests for a batch of prompts. Every item of a batch has a seed of its own, and all prompts of one
item are expanded with that seed, so that equal directives at equal places expand alike.
-/

namespace PromptTags

/-- Which prompt of a request a text is. -/
inductive Variant where
  | positive
  | negative
  | hiresPositive
  | hiresNegative
  deriving DecidableEq, Repr

namespace Variant

/-- The name under which the text before expansion is recorded. -/
def parameterName : Variant → String
  | positive => "Input Prompt"
  | negative => "Input NegativePrompt"
  | hiresPositive => "Input Prompt(Hires)"
  | hiresNegative => "Input NegativePrompt(Hires)"

/-- The name under which the expanded text is shown. -/
def label : Variant → String
  | positive => "prompt"
  | negative => "negative"
  | hiresPositive => "hires prompt"
  | hiresNegative => "hires negative"

end Variant

/-- A batch of items that share their prompt texts. -/
structure Request where
  prompt : Text
  negative : Text
  hires : Option Text
  hiresNegative : Option Text
  batch : Nat
  deriving DecidableEq, Repr

namespace Request

/-- A prompt that may be missing, dropped when it is empty. -/
def optional (variant : Variant) : Option Text → List (Variant × Text)
  | none => []
  | some text => if text.isEmpty then [] else [(variant, text)]

/-- The prompts of a request, in the order in which they are expanded. -/
def variants (r : Request) : List (Variant × Text) :=
  [(.positive, r.prompt), (.negative, r.negative)] ++
    optional .hiresPositive r.hires ++ optional .hiresNegative r.hiresNegative

end Request

structure Item where
  seed : UInt64
  prompts : List (Variant × Text)
  deriving DecidableEq, Repr

namespace Item

def get? (item : Item) (variant : Variant) : Option Text :=
  (item.prompts.find? fun p => p.1 = variant).map Prod.snd

end Item

structure Batch where
  items : List Item
  /-- The texts before expansion by parameter name, in the order of the names. -/
  rawPrompts : Keyed Text
  deriving DecidableEq, Repr

namespace Request

/-- The text of a prompt as it is recorded: on one line. -/
def onOneLine (text : Text) : Text := text.map fun c => if c = '\n' then ' ' else c

/-- Expand the prompts of one item in turn, going on from the texts recorded before. A text without a
marker is passed through and never recorded. -/
def expandVariants (e : Expander) (namespaces : Keyed Node) (saveRaw : Bool) (seed : UInt64) :
    List (Variant × Text) → Keyed Text → List (Variant × Text) × Keyed Text × Log
  | [], raw => ([], raw, [])
  | (variant, text) :: more, raw =>
    if marker ∈ text then
      let raw :=
        if saveRaw then Keyed.insert variant.parameterName.toList (onOneLine text) raw else raw
      let done := e.expand namespaces text seed
      let (prompts, raw, log) := expandVariants e namespaces saveRaw seed more raw
      ((variant, done.text) :: prompts, raw, done.log ++ log)
    else
      let (prompts, raw, log) := expandVariants e namespaces saveRaw seed more raw
      ((variant, text) :: prompts, raw, log)

/-- Expand the given number of items, each with the next seed of the source. -/
def expandItems (e : Expander) (namespaces : Keyed Node) (saveRaw : Bool)
    (variants : List (Variant × Text)) :
    Nat → Source → Keyed Text → List Item × Keyed Text × Log
  | 0, _, raw => ([], raw, [])
  | n + 1, seeds, raw =>
    let (seed, seeds) := seeds.next64
    let (prompts, raw, log) := expandVariants e namespaces saveRaw seed variants raw
    let (items, raw, more) := expandItems e namespaces saveRaw variants n seeds raw
    (⟨seed, prompts⟩ :: items, raw, log ++ more)

/-- Expand a request. The source gives the seeds of the items. -/
def expand (e : Expander) (namespaces : Keyed Node) (r : Request) (saveRaw : Bool)
    (seeds : Source) : Batch × Log :=
  let (items, raw, log) := expandItems e namespaces saveRaw r.variants r.batch seeds []
  (⟨items, raw⟩, log)

end Request

end PromptTags
