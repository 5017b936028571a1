import PromptTags.CommandLine.Switch
import PromptTags.Expansion.Request
import PromptTags.Files.Path

/-!
The commands of the command line.
-/

namespace PromptTags

inductive Command where
  | init (root : Path) (withSamples : Bool)
  | expand (request : Request) (seed : Option UInt64)
  | tags (path : Option Text)
  | files
  | check
  | config (key value : Option Text) (list : Bool)
  deriving DecidableEq, Repr

structure Invocation where
  command : Command
  verbose : Bool
  deriving DecidableEq, Repr

namespace Command

def numberBound : Nat := UInt64.size

def isNumber (t : Text) : Bool := (Text.boundedNumber? numberBound t).isSome

def textSwitch (word : String) (letter : Option Char) : Switch :=
  ⟨word.toList, letter, some fun _ => true⟩

def numberSwitch (word : String) (letter : Char) : Switch :=
  ⟨word.toList, some letter, some isNumber⟩

def textOf? (given : Switch.Given) (word : String) : Option Text := given.lookup word.toList

def numberOf? (given : Switch.Given) (word : String) : Option Nat :=
  (textOf? given word).bind (Text.boundedNumber? numberBound)

def isGiven (given : Switch.Given) (word : String) : Bool := (textOf? given word).isSome

/-- What a command expects, and what it makes of it. -/
structure Form where
  name : String
  switches : List Switch
  /-- How many arguments it takes at most. -/
  room : Nat
  build : Switch.Given → List Text → Except UsageFault Command

def initForm : Form where
  name := "init"
  switches := [⟨"no-samples".toList, none, none⟩]
  room := 1
  build given arguments :=
    let root := arguments.head?.getD ['.']
    if root.isEmpty then .error (.emptyArgument "PATH")
    else .ok (.init root (!isGiven given "no-samples"))

def expandForm : Form where
  name := "expand"
  switches := [textSwitch "negative" (some 'n'), textSwitch "hires" none,
    textSwitch "hires-negative" none, numberSwitch "seed" 's', numberSwitch "batch" 'b']
  room := 1
  build given arguments :=
    match arguments.head? with
    | none => .error (.missingArgument "PROMPT")
    | some prompt =>
      .ok (.expand ⟨prompt, (textOf? given "negative").getD [], textOf? given "hires",
        textOf? given "hires-negative", (numberOf? given "batch").getD 1⟩
        ((numberOf? given "seed").map Nat.toUInt64))

def tagsForm : Form := ⟨"tags", [], 1, fun _ arguments => .ok (.tags arguments.head?)⟩

def filesForm : Form := ⟨"files", [], 0, fun _ _ => .ok .files⟩

def checkForm : Form := ⟨"check", [], 0, fun _ _ => .ok .check⟩

def configForm : Form where
  name := "config"
  switches := [Switch.flag "list" 'l']
  room := 2
  build given arguments := .ok (.config arguments[0]? arguments[1]? (isGiven given "list"))

def forms : List Form := [initForm, expandForm, tagsForm, filesForm, checkForm, configForm]

def form? (name : Text) : Option Form := forms.find? fun f => f.name.toList = name

def helpName : Text := Text.lit "help"

/-- Read what follows `help`: nothing, or the name of a command. -/
def readHelp : List Text → Stop
  | [] => .help
  | [name] =>
    if (form? name).isSome ∨ name = helpName then .help else .misuse (.unknownCommand name)
  | _ :: word :: _ => .misuse (.unexpectedArgument word)

end Command

/-- Read a command line. The switch for details may be given before and behind the name of the
command. -/
def Invocation.read (words : List Text) : Except Stop Invocation := do
  let (leading, name, rest) ←
    Switch.readLeading [Switch.verbose, Switch.version, Switch.help] [] words
  match Command.form? name with
  | none =>
    if name = Command.helpName then throw (Command.readHelp rest)
    else throw (.misuse (.unknownCommand name))
  | some form =>
    let (given, arguments) ←
      Switch.readAll (form.switches ++ [Switch.verbose, Switch.help]) form.room [] [] rest
    match form.build given arguments with
    | .error fault => throw (.misuse fault)
    | .ok command =>
      return ⟨command, Command.isGiven leading "verbose" || Command.isGiven given "verbose"⟩

end PromptTags
