import JsonShape.Yaml.Cursor

/-! Tokens of a stream. -/
namespace JsonShape.Yaml

inductive Style where
  | plain | quoted | block
  deriving DecidableEq

inductive TokenKind where
  | streamStart
  | streamEnd
  | version (major minor : Nat)
  | tagDirective (handle expansion : String)
  | documentStart
  | documentEnd
  | blockSequenceStart
  | blockMappingStart
  | blockEnd
  | flowSequenceStart
  | flowSequenceEnd
  | flowMappingStart
  | flowMappingEnd
  | blockEntry
  | flowEntry
  | key
  | value
  | aliasName (name : String)
  | anchor (name : String)
  | tag (handle suffix : String)
  | scalar (style : Style) (text : String)
  deriving DecidableEq

structure Token where
  kind : TokenKind
  start : Mark
  stop : Mark

end JsonShape.Yaml
