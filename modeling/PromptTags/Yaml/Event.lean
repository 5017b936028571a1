import PromptTags.Text.Keyed
import PromptTags.Yaml.Token.Lexer

/-!
The events of a YAML text: the nodes of its documents in reading order, with collections as pairs of
a start and an end. Nodes that are left out, such as the value of a key without one, are there as
empty scalars. Events are made from tokens one at a time by a machine with a stack; what the machine
expects next says which tokens it accepts.
-/

namespace PromptTags.Yaml

/-- What may be written in front of a node. The tag is resolved, and in octets. -/
structure Properties where
  anchor : Option Text
  tag : Option (List UInt8)
  deriving DecidableEq, Repr

inductive Event where
  | documentStart
  | documentEnd
  | streamEnd
  | alias (name : Text)
  | scalar (properties : Properties) (text : Text) (style : ScalarStyle)
  | sequenceStart (properties : Properties)
  | sequenceEnd
  | mappingStart (properties : Properties)
  | mappingEnd
  deriving DecidableEq, Repr

/-- What a position in a text expects next. -/
inductive Expected where
  | streamStart
  | document
  | documentContent
  | documentEnd
  | blockNode
  | blockSequenceFirst
  | blockSequenceEntry
  | indentlessEntry
  | blockMappingFirst
  | blockMappingKey
  | blockMappingValue
  | flowSequenceFirst
  | flowSequenceEntry
  | flowPairKey
  | flowPairValue
  | flowPairEnd
  | flowMappingFirst
  | flowMappingKey
  | flowMappingValue
  | flowMappingNoValue
  deriving DecidableEq, Repr

/-- The state of the machine: the tokens to come, the fault behind them, what is expected next and
what after that, and the tag handles of the document. -/
structure Reading where
  tokens : List Token
  fault : Option Fault
  expected : Expected
  later : List Expected
  handles : List (Text × List UInt8)
  deriving Repr

namespace Reading

/-- A result of one step: an event and the state behind it. -/
abbrev Step := Except Fault (Event × Reading)

def peek (r : Reading) : Except Fault Token :=
  match r.tokens with
  | t :: _ => .ok t
  | [] => .error (r.fault.getD .unfinished)

def skip (r : Reading) : Reading := { r with tokens := r.tokens.tail }

def expect (r : Reading) (e : Expected) : Reading := { r with expected := e }

/-- The state in which `e` is expected once the node that follows is complete. -/
def thenExpect (r : Reading) (e : Expected) : Reading := { r with later := e :: r.later }

/-- The state behind a complete node. -/
def resume (r : Reading) : Reading :=
  match r.later with
  | e :: later => { r with expected := e, later }
  | [] => r.expect .document

/-- The scalar that stands for a node that is not written. -/
def absentScalar : Event := .scalar ⟨none, none⟩ [] .plain

/-- A node that is not written, with the expectation behind it. -/
def absent (r : Reading) (e : Expected) : Step := .ok (absentScalar, r.expect e)

/-- The handles every document knows. -/
def defaultHandles : List (Text × List UInt8) :=
  [(Text.lit "!", [tagSign]), (Text.lit "!!", coreTagStart)]

/-- The full form of a tag. -/
def resolveTag (r : Reading) (name : TagName) : Except Fault (List UInt8) :=
  if name.handle.isEmpty then .ok name.suffix
  else match Keyed.get? name.handle r.handles with
    | some expansion => .ok (expansion ++ name.suffix)
    | none => .error .undefinedHandle

/-- Read an anchor and a tag, each at most once and in either order. -/
def properties (r : Reading) : Except Fault (Option Text × Option TagName × Reading) := do
  match ← r.peek with
  | .anchor name =>
    let r := r.skip
    match ← r.peek with
    | .tag tag => return (some name, some tag, r.skip)
    | _ => return (some name, none, r)
  | .tag tag =>
    let r := r.skip
    match ← r.peek with
    | .anchor name => return (some name, some tag, r.skip)
    | _ => return (none, some tag, r)
  | _ => return (none, none, r)

/-- Read the start of a node. `block` admits block collections, and `indentless` a sequence whose
hyphens stand no further right than the keys around it. -/
def node (r : Reading) (block indentless : Bool) : Step := do
  match ← r.peek with
  | .alias name => return (.alias name, r.skip.resume)
  | _ =>
    let (anchor, tagName, r) ← r.properties
    let tag ← match tagName with
      | none => pure none
      | some name => some <$> r.resolveTag name
    let properties : Properties := ⟨anchor, tag⟩
    match ← r.peek with
    | .scalar text style =>
      let tag := if tag = some [tagSign] then none else tag
      return (.scalar ⟨anchor, tag⟩ text style, r.skip.resume)
    | .flowSequenceStart => return (.sequenceStart properties, r.expect .flowSequenceFirst)
    | .flowMappingStart => return (.mappingStart properties, r.expect .flowMappingFirst)
    | t =>
      if indentless && t = .blockEntry then
        return (.sequenceStart properties, r.expect .indentlessEntry)
      else if block && t = .blockSequenceStart then
        return (.sequenceStart properties, r.expect .blockSequenceFirst)
      else if block && t = .blockMappingStart then
        return (.mappingStart properties, r.expect .blockMappingFirst)
      else if anchor.isSome || tag.isSome then
        return (.scalar properties [] .plain, r.resume)
      else throw .nodeContent

/-- Read the directives in front of a document, as far as they have been read. -/
def directives : (version : Bool) → (handles : List (Text × List UInt8)) → List Token →
    Except Fault (List (Text × List UInt8) × List Token)
  | version, handles, .versionDirective major minor :: rest =>
    if version then .error .repeatedVersion
    else if major ≠ 1 ∨ (minor ≠ 1 ∧ minor ≠ 2) then .error .unsupportedVersion
    else directives true handles rest
  | version, handles, .tagDirective handle expansion :: rest =>
    if (Keyed.get? handle handles).isSome then .error .repeatedHandle
    else directives version (handles ++ [(handle, expansion)]) rest
  | _, handles, tokens => .ok (handles, tokens)

/-- Read the start of a document or the end of the text. Only the first document may do without its
sign, and only behind it may further end signs stand. -/
def document (r : Reading) (first : Bool) : Step := do
  let r := if first then r
    else { r with tokens := r.tokens.dropWhile (· = .documentEnd) }
  match ← r.peek with
  | .streamEnd => return (.streamEnd, r.skip)
  | t =>
    let explicit := match t with
      | .versionDirective _ _ | .tagDirective _ _ | .documentStart => true
      | _ => !first
    if explicit then
      let (handles, tokens) ← directives false [] r.tokens
      let r := { r with tokens, handles := handles ++ defaultHandles }
      match ← r.peek with
      | .documentStart =>
        return (.documentStart, (r.skip.thenExpect .documentEnd).expect .documentContent)
      | _ => throw .documentStart
    else
      let r := { r with handles := defaultHandles }
      return (.documentStart, (r.thenExpect .documentEnd).expect .blockNode)

/-- Read an entry of a block sequence behind its hyphen, unless one of `enders` follows. -/
def entry (r : Reading) (again : Expected) (enders : List Token) : Step := do
  if (← r.peek) ∈ enders then r.absent again else (r.thenExpect again).node true false

/-- Read a key or value of a block mapping behind its sign. -/
def blockPart (r : Reading) (next : Expected) : Step := do
  if (← r.peek) ∈ [Token.key, .value, .blockEnd] then r.absent next
  else (r.thenExpect next).node true true

/-- Read a part of a flow collection behind its sign, unless one of `enders` follows. -/
def flowPart (r : Reading) (next : Expected) (enders : List Token) : Step := do
  if (← r.peek) ∈ enders then r.absent next else (r.thenExpect next).node false false

def separator (r : Reading) (first : Bool) (fault : Fault) : Except Fault Reading := do
  if first then return r
  match ← r.peek with
  | .flowEntry => return r.skip
  | _ => throw fault

/-- Read an entry of a flow sequence or its end. -/
def flowSequence (r : Reading) (first : Bool) : Step := do
  if (← r.peek) = .flowSequenceEnd then return (.sequenceEnd, r.skip.resume)
  let r ← r.separator first .flowSequence
  match ← r.peek with
  | .key => return (.mappingStart ⟨none, none⟩, r.skip.expect .flowPairKey)
  | .flowSequenceEnd => return (.sequenceEnd, r.skip.resume)
  | _ => (r.thenExpect .flowSequenceEntry).node false false

/-- Read a key of a flow mapping or its end. -/
def flowMapping (r : Reading) (first : Bool) : Step := do
  if (← r.peek) = .flowMappingEnd then return (.mappingEnd, r.skip.resume)
  let r ← r.separator first .flowMapping
  match ← r.peek with
  | .key => r.skip.flowPart .flowMappingValue [.value, .flowEntry, .flowMappingEnd]
  | .flowMappingEnd => return (.mappingEnd, r.skip.resume)
  | _ => (r.thenExpect .flowMappingNoValue).node false false

/-- One event, by what is expected. -/
def step (r : Reading) : Step := do
  let t ← r.peek
  match r.expected with
  | .streamStart => r.skip.document true
  | .document => r.document false
  | .documentContent =>
    match t with
    | .versionDirective _ _ | .tagDirective _ _ | .documentStart | .documentEnd | .streamEnd =>
      return (absentScalar, r.resume)
    | _ => r.node true false
  | .documentEnd =>
    let r := if t = .documentEnd then r.skip else r
    return (.documentEnd, r.expect .document)
  | .blockNode => r.node true false
  | .blockSequenceFirst => blockSequence r.skip
  | .blockSequenceEntry => blockSequence r
  | .indentlessEntry =>
    if t = .blockEntry then
      r.skip.entry .indentlessEntry [.blockEntry, .key, .value, .blockEnd]
    else return (.sequenceEnd, r.resume)
  | .blockMappingFirst => blockMapping r.skip
  | .blockMappingKey => blockMapping r
  | .blockMappingValue =>
    if t = .value then r.skip.blockPart .blockMappingKey else r.absent .blockMappingKey
  | .flowSequenceFirst => r.skip.flowSequence true
  | .flowSequenceEntry => r.flowSequence false
  | .flowPairKey =>
    if t ∈ [Token.value, .flowEntry, .flowSequenceEnd] then r.skip.absent .flowPairValue
    else (r.thenExpect .flowPairValue).node false false
  | .flowPairValue =>
    if t = .value then r.skip.flowPart .flowPairEnd [.flowEntry, .flowSequenceEnd]
    else r.absent .flowPairEnd
  | .flowPairEnd => return (.mappingEnd, r.expect .flowSequenceEntry)
  | .flowMappingFirst => r.skip.flowMapping true
  | .flowMappingKey => r.flowMapping false
  | .flowMappingValue =>
    if t = .value then r.skip.flowPart .flowMappingKey [.flowEntry, .flowMappingEnd]
    else r.absent .flowMappingKey
  | .flowMappingNoValue => r.absent .flowMappingKey
where
  /-- Read an entry of a block sequence or its end. -/
  blockSequence (r : Reading) : Step := do
    match ← r.peek with
    | .blockEntry => r.skip.entry .blockSequenceEntry [.blockEntry, .blockEnd]
    | .blockEnd => return (.sequenceEnd, r.skip.resume)
    | _ => throw .blockEntry
  /-- Read a key of a block mapping or its end. -/
  blockMapping (r : Reading) : Step := do
    match ← r.peek with
    | .key => r.skip.blockPart .blockMappingValue
    | .blockEnd => return (.mappingEnd, r.skip.resume)
    | _ => throw .blockKey

/-- The events that follow. Hardly any event comes without a token of its own, so `fuel` steps are
enough if they are a few times as many as the tokens. -/
def drain : (fuel : Nat) → Reading → List Event × Option Fault
  | 0, _ => ([], some .unfinished)
  | fuel + 1, r =>
    match r.step with
    | .error e => ([], some e)
    | .ok (.streamEnd, _) => ([.streamEnd], none)
    | .ok (event, r) =>
      let (events, fault) := drain fuel r
      (event :: events, fault)

end Reading

/-- The events of a text as far as it can be read, and the fault that ends them if there is one. -/
def Event.ofText (text : Text) : List Event × Option Fault :=
  let (tokens, fault) := Token.ofText text
  Reading.drain (8 * tokens.length + 16) ⟨tokens, fault, .streamStart, [], []⟩

end PromptTags.Yaml
