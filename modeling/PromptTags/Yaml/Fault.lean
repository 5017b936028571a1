/-!
What can be wrong with a YAML text.
-/

namespace PromptTags.Yaml

inductive Fault where
  | controlCharacter
  | noToken
  | simpleKeyWithoutColon
  | entryNotAllowed
  | keyNotAllowed
  | valueNotAllowed
  | directiveName
  | unknownDirective
  | versionNumber
  | directiveHandle
  | directiveBlank
  | directiveEnd
  | anchorName
  | tagHandle
  | tagText
  | tagEscape
  | tagEnd
  | blockHeaderZero
  | blockHeaderEnd
  | blockTab
  | documentMarkInQuotes
  | endInQuotes
  | unknownEscape
  | escapeDigits
  | escapeValue
  | plainTab
  | plainColon
  | repeatedVersion
  | unsupportedVersion
  | repeatedHandle
  | documentStart
  | undefinedHandle
  | nodeContent
  | blockEntry
  | blockKey
  | flowSequence
  | flowMapping
  | unknownAnchor
  | moreThanOneDocument
  | tooDeep
  | tooManyAliases
  | notOfType (type : String)
  | numberTooLarge
  | unfinished
  deriving DecidableEq, Repr

def Fault.message : Fault → String
  | controlCharacter => "control characters are not allowed"
  | noToken => "found character that cannot start any token"
  | simpleKeyWithoutColon => "could not find expected ':' after a simple key"
  | entryNotAllowed => "block sequence entries are not allowed in this context"
  | keyNotAllowed => "mapping keys are not allowed in this context"
  | valueNotAllowed => "mapping values are not allowed in this context"
  | directiveName => "could not find expected directive name"
  | unknownDirective => "found unknown directive name"
  | versionNumber => "did not find expected version number"
  | directiveHandle => "did not find expected tag handle in a directive"
  | directiveBlank => "did not find expected whitespace in a directive"
  | directiveEnd => "did not find expected comment or line break after a directive"
  | anchorName => "did not find expected alphabetic or numeric character in an anchor or alias"
  | tagHandle => "did not find expected '!' in a tag"
  | tagText => "did not find expected tag URI"
  | tagEscape => "did not find a valid URI escaped octet in a tag"
  | tagEnd => "did not find expected whitespace or line break after a tag"
  | blockHeaderZero => "found an indentation indicator equal to 0"
  | blockHeaderEnd => "did not find expected comment or line break in a block scalar header"
  | blockTab => "found a tab character where an indentation space is expected"
  | documentMarkInQuotes => "found unexpected document indicator in a quoted scalar"
  | endInQuotes => "found unexpected end of stream in a quoted scalar"
  | unknownEscape => "found unknown escape character"
  | escapeDigits => "did not find expected hexadecimal number in an escape"
  | escapeValue => "found invalid Unicode character escape code"
  | plainTab => "found a tab character that violates indentation"
  | plainColon => "found unexpected ':' in a plain scalar"
  | repeatedVersion => "found duplicate %YAML directive"
  | unsupportedVersion => "found incompatible YAML document"
  | repeatedHandle => "found duplicate %TAG directive"
  | documentStart => "did not find expected <document start>"
  | undefinedHandle => "found undefined tag handle"
  | nodeContent => "did not find expected node content"
  | blockEntry => "did not find expected '-' indicator"
  | blockKey => "did not find expected key"
  | flowSequence => "did not find expected ',' or ']'"
  | flowMapping => "did not find expected ',' or '\x7d'"
  | unknownAnchor => "unknown anchor"
  | moreThanOneDocument => "found more than one document"
  | tooDeep => "recursion limit exceeded"
  | tooManyAliases => "repetition limit exceeded"
  | notOfType type => s!"invalid value: expected {type}"
  | numberTooLarge => "number is too large"
  | unfinished => "the text ends too early"

end PromptTags.Yaml
