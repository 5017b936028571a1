/-!
Why an operation on files fails.
-/

namespace PromptTags

inductive FileFault where
  | notFound
  | notDirectory
  | isDirectory
  /-- There is something at the place already. -/
  | taken
  | notText
  /-- The path has a null character in it, which no file system takes. -/
  | nullInPath
  | tooLong
  | other (message : String)
  deriving DecidableEq, Repr

def FileFault.message : FileFault → String
  | notFound => "no such file or directory"
  | notDirectory => "not a directory"
  | isDirectory => "is a directory"
  | taken => "file exists"
  | notText => "stream did not contain valid UTF-8"
  | nullInPath => "file name contained an unexpected NUL byte"
  | tooLong => "file name too long"
  | other message => message

end PromptTags
