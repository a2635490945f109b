import JsonShape.Shape
import JsonShape.Text.Quoted
import JsonShape.Value.Document

/-! The text of shapes: objects in braces, lists with brackets after the items, unions with bars. -/
namespace JsonShape.Shape

def isNameStart (c : Char) : Bool := Text.isLower c || Text.isUpper c || c == '_' || c == '$'

def nameText (name : String) : String :=
  match name.toList with
  | [] => "\"\""
  | c :: rest =>
    if isNameStart c && rest.all fun d => isNameStart d || Text.isDigit d then
      name else Text.Quoted.quote name

def literalText (v : Value) : String := v.document?.getD "literal"

def parenthesized (text : String) : String := "(" ++ text ++ ")"

mutual
def text (nameOf : Nat → String) : Shape → String
  | any => "any"
  | never => "never"
  | null => "null"
  | boolean => "boolean"
  | number _ => "number"
  | string => "string"
  | binary => "Binary"
  | dateTime _ format => if format == "date" then "Date(date)" else "Date"
  | literal _ v => literalText v
  | array _ items =>
    let inner := items.text nameOf
    (if items.kind == .union || items.kind == .intersection then parenthesized inner else inner) ++ "[]"
  | object _ props extra? =>
    match propertyTexts nameOf props ++ extraTexts nameOf extra? with
    | [] => "\x7b\x7d"
    | parts => "\x7b " ++ "; ".intercalate parts ++ " \x7d"
  | union _ _ members => " | ".intercalate (memberTexts nameOf members)
  | intersection _ members => " & ".intercalate (partTexts nameOf members)
  | handle id => nameOf id

def propertyTexts (nameOf : Nat → String) : List (Property Shape) → List String
  | [] => []
  | ⟨name, s, optional, _⟩ :: rest =>
    (nameText name ++ (if optional then "?" else "") ++ ": " ++ s.text nameOf) :: propertyTexts nameOf rest

def extraTexts (nameOf : Nat → String) : Option Shape → List String
  | none => []
  | some s => ["[key: string]: " ++ s.text nameOf]

def memberTexts (nameOf : Nat → String) : List Shape → List String
  | [] => []
  | s :: rest => s.text nameOf :: memberTexts nameOf rest

def partTexts (nameOf : Nat → String) : List Shape → List String
  | [] => []
  | s :: rest =>
    let inner := s.text nameOf
    (if s.kind == .union then parenthesized inner else inner) :: partTexts nameOf rest
end

end JsonShape.Shape
