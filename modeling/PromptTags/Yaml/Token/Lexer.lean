import PromptTags.Yaml.Scalar.Block
import PromptTags.Yaml.Scalar.Plain
import PromptTags.Yaml.Scalar.Quoted
import PromptTags.Yaml.Tag

/-!
Cutting a YAML text into tokens. Only a colon shows that what stood before it was a simple key, so
tokens wait in a queue as long as a key sign may have to be put in front of them. A simple key lies
within one line and 1024 octets; it is required where a line of a block collection starts. A text
is taken in blocks, so that a character that may not occur hides everything in its block.
-/

namespace PromptTags.Yaml

/-! ### Blocks -/

/-- The greatest length of a block, in octets. Characters are not divided. -/
def blockSize : Nat := 16384

/-- The part of a text that can be read, and what is wrong behind it. `done` holds the blocks so far
and `block` the characters of the next one, each last character first; `room` is what the block can
still take. -/
def readable : (done block : Text) → (room : Nat) → Text → Text × Option Fault
  | done, block, _, [] => ((block ++ done).reverse, none)
  | done, block, room, c :: cs =>
    let full := room < c.utf8Size
    let done := if full then block ++ done else done
    if isAllowed c then
      if full then readable done [c] (blockSize - c.utf8Size) cs
      else readable done (c :: block) (room - c.utf8Size) cs
    else (done.reverse, some .controlCharacter)

/-! ### The state -/

/-- A place where a simple key may have started. -/
structure PendingKey where
  /-- How many tokens of the text come before it. -/
  place : Nat
  mark : Mark
  /-- Whether a colon has to follow. -/
  required : Bool
  deriving DecidableEq, Repr

structure Lexer where
  cursor : Cursor
  /-- What is wrong behind the text of the cursor, if anything. -/
  ending : Option Fault
  /-- The column from which on a line belongs to the innermost block collection, one more than its
  indentation; zero outside of all block collections. -/
  level : Nat
  /-- The levels of the block collections around it, the innermost first. -/
  outerLevels : List Nat
  /-- The simple key that may have started in the innermost flow collection or outside of all. -/
  pending : Option PendingKey
  /-- The same for the flow collections around it and the text outside, the innermost first. -/
  outerPending : List (Option PendingKey)
  /-- Whether a simple key may start at the next token. -/
  keyAllowed : Bool
  /-- Tokens that may still get a key sign in front. -/
  queue : List Token
  /-- How many tokens have left the queue. -/
  delivered : Nat
  deriving Repr

namespace Lexer

/-- The start of a text, with the token for it. -/
def start (text : Text) (ending : Option Fault) : Lexer where
  cursor := ⟨text, .start⟩
  ending := ending
  level := 0
  outerLevels := []
  pending := none
  outerPending := []
  keyAllowed := true
  queue := [.streamStart]
  delivered := 0

def inFlow (l : Lexer) : Bool := !l.outerPending.isEmpty

def column (l : Lexer) : Nat := l.cursor.column

def push (l : Lexer) (t : Token) : Lexer := { l with queue := l.queue ++ [t] }

/-- A token in front of the one with the given number. -/
def pushAt (l : Lexer) (place : Nat) (t : Token) : Lexer :=
  { l with queue := l.queue.insertIdx (place - l.delivered) t }

def isStale (l : Lexer) (key : PendingKey) : Bool :=
  key.mark.line < l.cursor.mark.line || key.mark.index + 1024 < l.cursor.mark.index

/-- A pending key that is too far back is given up; a required one is a fault. -/
def dropStale (l : Lexer) (key : Option PendingKey) : Except Fault (Option PendingKey) :=
  match key with
  | none => .ok none
  | some key =>
    if l.isStale key then
      if key.required then .error .simpleKeyWithoutColon else .ok none
    else .ok (some key)

/-- All pending keys that are too far back are given up. -/
def dropAllStale (l : Lexer) : Except Fault Lexer := do
  let outerPending ← l.outerPending.reverse.mapM l.dropStale
  let pending ← l.dropStale l.pending
  return { l with pending, outerPending := outerPending.reverse }

/-- The innermost pending key is given up; a required one is a fault. -/
def dropPending (l : Lexer) : Except Fault Lexer :=
  match l.pending with
  | some key =>
    if key.required then .error .simpleKeyWithoutColon else .ok { l with pending := none }
  | none => .ok l

def savePending (l : Lexer) : Except Fault Lexer :=
  if l.keyAllowed then do
    let l ← l.dropPending
    let required := !l.inFlow && l.level = l.column + 1
    return { l with pending := some ⟨l.delivered + l.queue.length, l.cursor.mark, required⟩ }
  else .ok l

/-- Close the block collections whose content would start to the right of `level`. -/
def unindentTo (level : Nat) (current : Nat) : List Nat → List Token × Nat × List Nat
  | [] => if level < current then ([.blockEnd], 0, []) else ([], current, [])
  | outer :: outers =>
    if level < current then
      let (closed, current, outers) := unindentTo level outer outers
      (.blockEnd :: closed, current, outers)
    else ([], current, outer :: outers)

/-- Close block collections down to a level. In a flow collection indentation means nothing. -/
def unindent (l : Lexer) (level : Nat) : Lexer :=
  if l.inFlow then l
  else
    let (closed, level, outerLevels) := unindentTo level l.level l.outerLevels
    { l with level, outerLevels, queue := l.queue ++ closed }

/-- Open a block collection at a column if it lies to the right of the innermost one. Its token goes
in front of the token with the given number, or to the end. -/
def indent (l : Lexer) (column : Nat) (place : Option Nat) (t : Token) : Lexer :=
  if l.inFlow || column < l.level then l
  else
    let l := { l with level := column + 1, outerLevels := l.level :: l.outerLevels }
    match place with
    | some place => l.pushAt place t
    | none => l.push t

/-- Behind a sign of `n` characters, with its token. -/
def sign (l : Lexer) (n : Nat) (t : Token) : Lexer := { l with cursor := l.cursor.skip n }.push t

/-- Behind what has been read of the line, given what follows it. -/
def readTo (l : Lexer) (rest : Text) : Lexer :=
  { l with cursor := l.cursor.skip (l.cursor.rest.length - rest.length) }

/-- Out of all block collections, and no key may start. -/
def leaveBlocks (l : Lexer) : Except Fault Lexer := do
  let l ← (l.unindent 0).dropPending
  return { l with keyAllowed := false }

def fetchEnd (l : Lexer) : Except Fault Lexer := do
  let mark := l.cursor.mark
  let l := if mark.column = 0 then l
    else { l with cursor := { l.cursor with mark := mark.newline 0 } }
  let l ← l.leaveBlocks
  return l.push .streamEnd

def fetchDirective (l : Lexer) : Except Fault Lexer := do
  let l ← l.leaveBlocks
  let l := { l with cursor := l.cursor.skip 1 }
  let (t, rest) ← readDirective l.cursor.rest
  let l := l.readTo rest
  let cursor := l.cursor.skipBlanks.skipComment
  if !atLineEnd cursor.rest then throw .directiveEnd
  return { l with cursor := cursor.skipBreak }.push t

def fetchDocumentMark (l : Lexer) (t : Token) : Except Fault Lexer := do
  let l ← l.leaveBlocks
  return l.sign 3 t

def fetchFlowStart (l : Lexer) (t : Token) : Except Fault Lexer := do
  let l ← l.savePending
  let l := { l with
    pending := none, outerPending := l.pending :: l.outerPending, keyAllowed := true }
  return l.sign 1 t

def fetchFlowEnd (l : Lexer) (t : Token) : Except Fault Lexer := do
  let l ← l.dropPending
  let l := match l.outerPending with
    | [] => l
    | pending :: outerPending => { l with pending, outerPending }
  return { l with keyAllowed := false }.sign 1 t

def fetchFlowEntry (l : Lexer) : Except Fault Lexer := do
  let l ← l.dropPending
  return { l with keyAllowed := true }.sign 1 .flowEntry

def fetchBlockEntry (l : Lexer) : Except Fault Lexer := do
  if !l.inFlow && !l.keyAllowed then throw .entryNotAllowed
  let l ← (l.indent l.column none .blockSequenceStart).dropPending
  return { l with keyAllowed := true }.sign 1 .blockEntry

def fetchKey (l : Lexer) : Except Fault Lexer := do
  if !l.inFlow && !l.keyAllowed then throw .keyNotAllowed
  let l ← (l.indent l.column none .blockMappingStart).dropPending
  return { l with keyAllowed := !l.inFlow }.sign 1 .key

/-- The colon of a value: it makes a pending simple key one. -/
def fetchValue (l : Lexer) : Except Fault Lexer := do
  match l.pending with
  | some key =>
    let l := l.pushAt key.place .key
    let l := l.indent key.mark.column (some key.place) .blockMappingStart
    return { l with pending := none, keyAllowed := false }.sign 1 .value
  | none =>
    if !l.inFlow && !l.keyAllowed then throw .valueNotAllowed
    let l := l.indent l.column none .blockMappingStart
    return { l with keyAllowed := !l.inFlow }.sign 1 .value

def fetchAnchor (l : Lexer) (t : Text → Token) : Except Fault Lexer := do
  let l ← l.savePending
  let l := { l with keyAllowed := false, cursor := l.cursor.skip 1 }
  let (name, rest) ← readAnchor l.cursor.rest
  return (l.readTo rest).push (t name)

def fetchTag (l : Lexer) : Except Fault Lexer := do
  let l ← l.savePending
  let l := { l with keyAllowed := false }
  let (name, rest) ← readTag l.inFlow l.cursor.rest
  return (l.readTo rest).push (.tag name)

def fetchBlockScalar (l : Lexer) (literal : Bool) : Except Fault Lexer := do
  let l ← l.dropPending
  let l := { l with cursor := l.cursor.skip 1 }
  let (header, rest) ← readBlockHeader l.cursor.rest
  let cursor := (l.readTo rest).cursor.skipBlanks.skipComment
  if !atLineEnd cursor.rest then throw .blockHeaderEnd
  let cursor := cursor.skipBreak
  let state := match header.increment with
    | some n => .margin (l.level - 1 + n)
    | none => .search 0
  let (content, cursor) ←
    readBlock literal (max l.level 1) .empty state cursor.rest cursor.mark
  let text := content.finish header.chomping
  return { l with keyAllowed := true, cursor }.push (.scalar text .block)

def fetchQuoted (l : Lexer) (quotes : Quotes) : Except Fault Lexer := do
  let l ← l.savePending
  let cursor := l.cursor.skip 1
  let (text, cursor) ← readQuoted quotes [] .word cursor.rest cursor.mark
  return { l with keyAllowed := false, cursor }.push (.scalar text .quoted)

def fetchPlain (l : Lexer) : Except Fault Lexer := do
  let l ← l.savePending
  let found ← readPlain l.inFlow l.level [] .none false l.cursor.rest l.cursor.mark
  return { l with keyAllowed := found.passedBreak, cursor := found.after }.push
    (.scalar found.text .plain)

def fetchToken (l : Lexer) : Except Fault Lexer :=
  let atStart := l.column = 0
  match l.cursor.rest with
  | [] => l.fetchEnd
  | c :: cs =>
    if atStart && c = '%' then l.fetchDirective
    else if atStart && c = '-' && atDocumentMark (c :: cs) then l.fetchDocumentMark .documentStart
    else if atStart && c = '.' && atDocumentMark (c :: cs) then l.fetchDocumentMark .documentEnd
    else if c = '[' then l.fetchFlowStart .flowSequenceStart
    else if c = '\x7b' then l.fetchFlowStart .flowMappingStart
    else if c = ']' then l.fetchFlowEnd .flowSequenceEnd
    else if c = '\x7d' then l.fetchFlowEnd .flowMappingEnd
    else if c = ',' then l.fetchFlowEntry
    else if c = '-' && atGap cs then l.fetchBlockEntry
    else if c = '?' && (l.inFlow || atGap cs) then l.fetchKey
    else if c = ':' && (l.inFlow || atGap cs) then l.fetchValue
    else if c = '*' then l.fetchAnchor .alias
    else if c = '&' then l.fetchAnchor .anchor
    else if c = '!' then l.fetchTag
    else if c = '|' && !l.inFlow then l.fetchBlockScalar true
    else if c = '>' && !l.inFlow then l.fetchBlockScalar false
    else if c = '\x27' then l.fetchQuoted .single
    else if c = '\x22' then l.fetchQuoted .double
    else if isBlank c || isBreak c || c ∈ "#|>%@\x60".toList then .error .noToken
    else l.fetchPlain

/-- Make sure that a number of characters can be read, or that the text is complete. -/
def require (l : Lexer) (n : Nat) : Except Fault Unit :=
  match l.ending with
  | some fault => if (l.cursor.rest.drop (n - 1)).isEmpty then .error fault else .ok ()
  | none => .ok ()

/-- Pass to the next token and fetch it. What stands at a place is told from four characters. -/
def fetch (l : Lexer) : Except Fault Lexer := do
  let (keyAllowed, cursor) :=
    Cursor.skipGap l.inFlow l.keyAllowed false l.cursor.rest l.cursor.mark
  let l ← { l with keyAllowed, cursor }.dropAllStale
  l.require 4
  let l ← (l.unindent (l.column + 1)).fetchToken
  l.require 1
  return l

/-- Whether the first token of the queue is settled: there is one, and no pending key starts with
it. -/
def isSettled (l : Lexer) : Bool :=
  !l.queue.isEmpty &&
    !(l.pending :: l.outerPending).any fun key => key.any fun key => key.place = l.delivered

/-- Take settled tokens off the queue, fetching more where none is, until the end of the text. Every
step takes a token off or reads on, so `fuel` steps are enough if they are as many as the characters
and the tokens together. -/
def drain : (fuel : Nat) → Lexer → List Token × Option Fault
  | 0, _ => ([], some .unfinished)
  | fuel + 1, l =>
    match l.queue with
    | [] =>
      match l.fetch with
      | .ok l => drain fuel l
      | .error e => ([], some e)
    | t :: queue =>
      match l.dropAllStale with
      | .error e => ([], some e)
      | .ok l =>
        if l.isSettled then
          if t = .streamEnd then ([t], none)
          else
            let (tokens, fault) :=
              drain fuel { l with queue, delivered := l.delivered + 1 }
            (t :: tokens, fault)
        else
          match l.fetch with
          | .ok l => drain fuel l
          | .error e => ([], some e)

end Lexer

/-- The tokens of a text as far as they can be read, and the fault that ends them, if any. -/
def Token.ofText (text : Text) : List Token × Option Fault :=
  let (known, ending) := readable [] [] blockSize text
  (Lexer.start known ending).drain (8 * text.length + 16)

end PromptTags.Yaml
