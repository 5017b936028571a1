import PromptTags.CommandLine.Run

/-!
The program: the command line on real files. Log records go to the error stream.
-/

namespace PromptTags

/-- Actions on real files. The records of the log that are no less urgent than the level are
shown. -/
abbrev Program := ReaderT Level IO

namespace Program

def faultOf (e : IO.Error) : FileFault :=
  match e with
  | .noFileOrDirectory .. => .notFound
  | .alreadyExists .. => .taken
  | e => .other (toString e)

/-- Do something with files and give the fault as a value. -/
def attempt {α : Type} (action : IO α) : IO (Except FileFault α) := do
  try
    return .ok (← action)
  catch e =>
    return .error (faultOf e)

def placed (p : String) := IO.currentDir >>= fun current => pure (current / p)

def kindOf? (type : IO.FS.FileType) : Option FileKind :=
  match type with
  | .dir => some .directory
  | .file => some .file
  | _ => none

/-- What stands at a path. Links are followed. -/
def kindAt? (p : String) : IO (Option FileKind) := do
  try
    return kindOf? (← (← placed p).metadata).type
  catch _ => return none

def readText (p : String) : IO (Except FileFault Text) := do
  match ← attempt (IO.FS.readBinFile p) with
  | .error fault => return .error fault
  | .ok bytes =>
    match String.fromUTF8? bytes with
    | some text => return .ok text.toList
    | none => return .error .notText

/-- The files below a directory. Links are not followed, and what cannot be read is passed over. -/
partial def filesBelow (dir : String) : IO (List (List Text)) := do
  try
    let mut found := []
    for entry in ← (← placed dir).readDir do
      let name := entry.fileName.toList
      match kindOf? (← entry.path.symlinkMetadata).type with
      | some .file => found := [name] :: found
      | some .directory =>
        let inner ← filesBelow (toString entry.path)
        found := inner.map (name :: ·) ++ found
      | none => pure ()
    return found
  catch _ => return []

def filesFrom (p : String) : IO (List (List Text)) := do
  match ← kindAt? p with
  | none => return []
  | some .file => return [[]]
  | some .directory => filesBelow p

def display (threshold : Level) (records : Log) : IO Unit :=
  for record in records do
    if record.level.rank ≤ threshold.rank then
      IO.eprintln s!"[{record.level.name}] {record.message}"

instance : FileAccess Program where
  kind? p := kindAt? (String.ofList p)
  read p := readText (String.ofList p)
  write p t := attempt (IO.FS.writeFile (String.ofList p) (String.ofList t))
  copy p q := attempt do
    IO.FS.writeBinFile (String.ofList q) (← IO.FS.readBinFile (String.ofList p))
  makeDirectory p := attempt (IO.FS.createDir (String.ofList p))
  filesBelow p := filesFrom (String.ofList p)
  log records := do display (← read) records

end Program

/-- A number that is different each time. -/
def entropy : IO UInt64 := do
  let bytes ← IO.getRandomBytes 8
  return bytes.toList.foldl (fun n b => n * 256 + b.toUInt64) 0

def logLevel (words : List Text) (s : Surroundings) : IO Level := do
  match Invocation.read words with
  | .error _ => return .warn
  | .ok i => return if ← (i.wantsDetails s : Program Bool).run .error then .debug else .warn

end PromptTags

open PromptTags in
def main (arguments : List String) : IO UInt32 := do
  let words := arguments.map String.toList
  let current := toString (← IO.currentDir)
  let namedRoot ← IO.getEnv "PROMPTSEL_ROOT"
  let s : Surroundings := ⟨current.toList, namedRoot.map String.toList⟩
  let seeds := Source.ofSeed (← entropy)
  let outcome ← (runCommandLine words s seeds : Program Outcome).run (← logLevel words s)
  IO.print (String.ofList outcome.output)
  IO.eprint outcome.report
  return outcome.code.toUInt32
