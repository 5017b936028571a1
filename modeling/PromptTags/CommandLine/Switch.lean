import PromptTags.Text.Basic

/-!
Switches and arguments as they are written on a command line. A switch is a word behind two hyphens
or a letter behind one; letters may stand together. The value of a switch follows an equals sign,
or the letter directly, or is the next word, which must not look like a switch then. Two hyphens
alone end the switches. A switch may be given once.
-/

namespace PromptTags

inductive UsageFault where
  | noCommand
  | unknownCommand (word : Text)
  | unknownSwitch (word : Text)
  | repeatedSwitch (word : Text)
  | missingValue (word : Text)
  | unexpectedValue (word : Text)
  | invalidValue (word value : Text)
  | unexpectedArgument (word : Text)
  | missingArgument (name : String)
  | emptyArgument (name : String)
  deriving DecidableEq, Repr

def UsageFault.message : UsageFault → String
  | noCommand => "a command is required"
  | unknownCommand word => s!"unrecognized command '{String.ofList word}'"
  | unknownSwitch word => s!"unexpected argument '{String.ofList word}'"
  | repeatedSwitch word => s!"'--{String.ofList word}' cannot be used multiple times"
  | missingValue word => s!"a value is required for '--{String.ofList word}'"
  | unexpectedValue word => s!"'--{String.ofList word}' takes no value"
  | invalidValue word value =>
    s!"invalid value '{String.ofList value}' for '--{String.ofList word}'"
  | unexpectedArgument word => s!"unexpected argument '{String.ofList word}'"
  | missingArgument name => s!"the argument {name} is required"
  | emptyArgument name => s!"a value is required for {name}"

/-- Why the reading of a command line stops early. -/
inductive Stop where
  | misuse (fault : UsageFault)
  | version
  | help
  deriving DecidableEq, Repr

structure Switch where
  /-- The word behind two hyphens. -/
  word : Text
  /-- The letter behind one hyphen, if it has one. -/
  letter : Option Char
  /-- Which values it accepts, if it has a value. -/
  accepts : Option (Text → Bool)

namespace Switch

/-- A switch without a value. -/
def flag (word : String) (letter : Char) : Switch := ⟨word.toList, some letter, none⟩

def help : Switch := flag "help" 'h'

def version : Switch := flag "version" 'V'

def verbose : Switch := flag "verbose" 'v'

/-- The switches that were given, by word, with their values. -/
abbrev Given := List (Text × Text)

def give (s : Switch) (value : Text) (given : Given) : Except Stop Given :=
  if (given.lookup s.word).isSome then .error (.misuse (.repeatedSwitch s.word))
  else if s.word = help.word then .error .help
  else if s.word = version.word then .error .version
  else if s.accepts.any fun accepts => !accepts value then
    .error (.misuse (.invalidValue s.word value))
  else .ok (given ++ [(s.word, value)])

/-- Read a word behind two hyphens. What is given back with the switches is one that still waits for
its value. -/
def readWord (known : List Switch) (given : Given) (word : Text) :
    Except Stop (Given × Option Switch) :=
  let name := word.takeWhile (· ≠ '=')
  let value? := match word.dropWhile (· ≠ '=') with
    | [] => none
    | _ :: value => some value
  match known.find? fun s => s.word = name with
  | none => .error (.misuse (.unknownSwitch word))
  | some s =>
    match s.accepts, value? with
    | none, none => (s.give [] given).map fun given => (given, none)
    | none, some _ => .error (.misuse (.unexpectedValue s.word))
    | some _, some value => (s.give value given).map fun given => (given, none)
    | some _, none => .ok (given, some s)

def readLetters (known : List Switch) (given : Given) :
    List Char → Except Stop (Given × Option Switch)
  | [] => .ok (given, none)
  | c :: rest =>
    match known.find? fun s => s.letter = some c with
    | none => .error (.misuse (.unknownSwitch ('-' :: c :: rest)))
    | some s =>
      if s.accepts.isNone then
        match s.give [] given with
        | .error stop => .error stop
        | .ok given => readLetters known given rest
      else
        match rest with
        | [] => .ok (given, some s)
        | '=' :: value => (s.give value given).map fun given => (given, none)
        | value => (s.give value given).map fun given => (given, none)

/-- Whether a word looks like a switch. A hyphen alone does not. -/
def looksLike (word : Text) : Bool := word.head? = some '-' && word ≠ ['-']

def read (known : List Switch) (given : Given) (word : Text) :
    Except Stop (Given × Option Switch) :=
  match word with
  | '-' :: '-' :: name => readWord known given name
  | '-' :: letters => readLetters known given letters
  | _ => .error (.misuse (.unexpectedArgument word))

def ending : Text := ['-', '-']

/-- Read the switches before the name of a command. Gives them, the name and what follows it. -/
def readLeading (known : List Switch) (given : Given) :
    List Text → Except Stop (Given × Text × List Text)
  | [] => .error (.misuse .noCommand)
  | word :: rest =>
    if word = ending then .error (.misuse (.unexpectedArgument word))
    else if looksLike word then
      match read known given word with
      | .error stop => .error stop
      | .ok (_, some s) => .error (.misuse (.missingValue s.word))
      | .ok (given, none) => readLeading known given rest
    else .ok (given, word, rest)

/-- Put arguments behind those before, as far as there is room for them. -/
def addArguments (room : Nat) (before more : List Text) : Except Stop (List Text) :=
  match more.drop (room - before.length) with
  | [] => .ok (before ++ more)
  | word :: _ => .error (.misuse (.unexpectedArgument word))

/-- Read switches and at most `room` arguments in any order. -/
def readAll (known : List Switch) (room : Nat) (given : Given) (arguments : List Text) :
    List Text → Except Stop (Given × List Text)
  | [] => .ok (given, arguments)
  | word :: rest =>
    if word = ending then (addArguments room arguments rest).map fun arguments => (given, arguments)
    else if looksLike word then
      match read known given word with
      | .error stop => .error stop
      | .ok (given, none) => readAll known room given arguments rest
      | .ok (given, some s) =>
        match rest with
        | [] => .error (.misuse (.missingValue s.word))
        | value :: rest =>
          if looksLike value then .error (.misuse (.missingValue s.word))
          else match s.give value given with
            | .error stop => .error stop
            | .ok given => readAll known room given arguments rest
    else
      match addArguments room arguments [word] with
      | .error stop => .error stop
      | .ok arguments => readAll known room given arguments rest

end Switch

end PromptTags
