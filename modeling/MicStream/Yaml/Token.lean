/-!
# Tokens of a YAML text

Indentation and the position of colons are already resolved: block
collections start and end with tokens of their own, and a key is announced by
`Token.key` even when the text has no question mark.
-/
namespace MicStream.Yaml

/-- How a scalar is written: bare, in quotes, or as a literal or folded block. -/
inductive Style where
  | plain
  | singleQuoted
  | doubleQuoted
  | literal
  | folded
  deriving DecidableEq, Repr

inductive Token where
  | version (major minor : Nat)
  | tagShorthand (handle expansion : List Char)
  | documentStart
  | documentEnd
  | blockSequenceStart
  | blockMappingStart
  | blockEnd
  | flowSequenceStart
  | flowSequenceEnd
  | flowMappingStart
  | flowMappingEnd
  | blockEntry
  | flowEntry
  | key
  | value
  | alias (name : List Char)
  | anchor (name : List Char)
  | tag (handle suffix : List Char)
  | scalar (style : Style) (text : List Char)
  deriving DecidableEq, Repr

end MicStream.Yaml
