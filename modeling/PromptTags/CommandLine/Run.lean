import PromptTags.CommandLine.Command
import PromptTags.Text.Blank
import PromptTags.Workspace.Commands

/-!
Running a command line: what it prints, and the exit code.
-/

namespace PromptTags

inductive Outcome where
  /-- With something to print. -/
  | done (text : Text)
  | failed (failure : Failure)
  | misused (fault : UsageFault)
  deriving DecidableEq, Repr

namespace Outcome

def usage : String :=
  "Expand @tag@ directives in prompts from YAML tag files\n\n" ++
  "Usage: promptsel [--verbose] <command>\n\n" ++
  "Commands:\n" ++
  "  init [PATH] [--no-samples]   Initialize a new workspace\n" ++
  "  expand PROMPT [--negative TEXT] [--hires TEXT] [--hires-negative TEXT] " ++
  "[--seed N] [--batch N]\n" ++
  "                               Expand directives in a prompt\n" ++
  "  tags [PATH]                  List namespaces, or the tag paths under PATH\n" ++
  "  files                        List tag files\n" ++
  "  check                        Report tag files that failed to load\n" ++
  "  config [KEY [VALUE]] [--list]\n" ++
  "                               View or modify configuration\n"

def code : Outcome → Nat
  | done _ => 0
  | failed failure => failure.exitCode
  | misused _ => 2

def output : Outcome → Text
  | done text => text
  | _ => []

def report : Outcome → String
  | done _ => ""
  | failed failure => s!"Error: {failure.advice}\n"
  | misused fault => s!"error: {fault.message}\n\n{usage}"

end Outcome

namespace Command

def outputLine (text : Text) : Text := text ++ ['\n']

def created (root : Path) (samples : List Path) : Text :=
  outputLine (Text.lit "Initialized promptsel workspace at " ++ root) ++
    samples.flatMap fun file => outputLine (Text.lit "  sample: " ++ file)

/-- What is printed if it is not said which setting is meant. -/
def configUsage : Text :=
  outputLine (Text.lit "Usage: promptsel config [--list | <key> [<value>]]") ++
    outputLine s!"Valid keys: {Setting.allKeys}".toList

variable {m : Type → Type} [Monad m] [FileAccess m]

def runConfig (root : Path) (key value : Option Text) (list : Bool) : ExceptT Failure m Text :=
  if list then do
    let settings ← Workspace.listSettings root
    return settings.flatMap fun s => outputLine (s.1.toList ++ Text.lit " = " ++ s.2)
  else
    match key, value with
    | none, _ => return configUsage
    | some key, none => outputLine <$> Workspace.getSetting root key
    | some key, some value => do
      Workspace.setSetting root key value
      return outputLine (Text.lit "Set " ++ key ++ Text.lit " = " ++ value)

/-- Run a command and give what it prints. Without a seed the item seeds come from `entropy`. -/
def run (s : Surroundings) (entropy : Source) : Command → ExceptT Failure m Text
  | .init root withSamples => created root <$> Workspace.create root withSamples
  | .expand request seed => do
    let root ← Workspace.discover s
    let seeds := (seed.map Source.ofSeed).getD entropy
    Report.expansion <$> Workspace.expand root request seeds
  | .tags path => do
    let paths ← Workspace.tagPaths (← Workspace.discover s) path
    return outputLine (Text.trimEnd (Report.tagList paths))
  | .files => do
    let files ← Workspace.files (← Workspace.discover s)
    return files.flatMap outputLine
  | .check => do Report.check <$> Workspace.check (← Workspace.discover s)
  | .config key value list => do runConfig (← Workspace.discover s) key value list

end Command

namespace Invocation

variable {m : Type → Type} [Monad m] [FileAccess m]

def wantsDetails (i : Invocation) (s : Surroundings) : m Bool := do
  if i.verbose then return true
  let config : Except Failure Config ← ExceptT.run do
    Workspace.loadConfig (← Workspace.discover s)
  match config with
  | .ok c => return c.debug
  | .error _ => return false

def run (i : Invocation) (s : Surroundings) (entropy : Source) : m Outcome := do
  match ← (i.command.run s entropy).run with
  | .ok text => return .done text
  | .error failure => return .failed failure

end Invocation

def versionLine : Text := Text.lit "promptsel 0.1.0\n"

def Stop.outcome : Stop → Outcome
  | misuse fault => .misused fault
  | version => .done versionLine
  | help => .done Outcome.usage.toList

def runCommandLine {m : Type → Type} [Monad m] [FileAccess m] (words : List Text)
    (s : Surroundings) (entropy : Source) : m Outcome :=
  match Invocation.read words with
  | .error stop => return stop.outcome
  | .ok i => i.run s entropy

end PromptTags
