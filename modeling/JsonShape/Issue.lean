import JsonShape.Entries
import JsonShape.Path
import JsonShape.Value

/-! Issues: what is wrong, where, and with which parameters. -/
namespace JsonShape

inductive Code where
  | unresolvedRef
  | unsupportedCombinator
  | duplicateKey
  | parseError
  | truncated
  | invalidType
  | required
  | invalidLiteral
  | noMatch
  | invalidFormat
  | other (name : String)
  deriving DecidableEq

namespace Code

def name : Code → String
  | unresolvedRef => "unresolved_ref"
  | unsupportedCombinator => "unsupported_combinator"
  | duplicateKey => "duplicate_key"
  | parseError => "parse_error"
  | truncated => "truncated"
  | invalidType => "invalid_type"
  | required => "required"
  | invalidLiteral => "invalid_literal"
  | noMatch => "no_match"
  | invalidFormat => "invalid_format"
  | other name => name

def known : List Code :=
  [unresolvedRef, unsupportedCombinator, duplicateKey, parseError, truncated, invalidType, required,
    invalidLiteral, noMatch, invalidFormat]

def ofName (text : String) : Code := (known.find? (·.name == text)).getD (other text)

end Code

structure Issue where
  path : String
  code : Code
  message : String
  hint : String := ""
  params : List (String × Value) := []
  cause? : Option String := none

namespace Issue

def atPath (p : Path) (code : Code) (message : String) (params : List (String × Value)) : Issue :=
  { path := p.pointer, code, message, params := Entries.ofList params }

def summary (issues : List Issue) : String :=
  let shown := (issues.take 3).map fun issue => issue.code.name ++ " at " ++ issue.path
  let more := if issues.length > 3 then "; ... (total " ++ toString issues.length ++ ")" else ""
  "; ".intercalate shown ++ more

def hasCode (issues : List Issue) (code : Code) : Bool := issues.any (·.code == code)

def causes (issues : List Issue) : List String := issues.filterMap (·.cause?)

end Issue

end JsonShape
