/-!
Log records. Pure code returns the records it would write; the outer layer decides which to show.
-/

namespace PromptTags

inductive Level where
  | error
  | warn
  | info
  | debug
  | trace
  deriving DecidableEq, Repr

namespace Level

/-- The name of a level in lower case. -/
def name : Level → String
  | error => "error"
  | warn => "warn"
  | info => "info"
  | debug => "debug"
  | trace => "trace"

/-- Levels from the most to the least urgent. -/
def rank : Level → Nat
  | error => 0
  | warn => 1
  | info => 2
  | debug => 3
  | trace => 4

end Level

structure LogRecord where
  level : Level
  message : String
  deriving DecidableEq, Repr

/-- The records of a run, oldest first. -/
abbrev Log := List LogRecord

namespace Log

def warn (message : String) : Log := [⟨.warn, message⟩]

def info (message : String) : Log := [⟨.info, message⟩]

def debug (message : String) : Log := [⟨.debug, message⟩]

end Log

end PromptTags
