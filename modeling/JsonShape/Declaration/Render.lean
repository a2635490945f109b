import JsonShape.Declaration.Comment
import JsonShape.Declaration.Lower
import JsonShape.Text.Letter
import JsonShape.Text.Quoted
import JsonShape.Value.Document

/-! Go source for declarations. -/
namespace JsonShape.Declaration

inductive RenderError where
  | noPackage
  | malformed
  deriving DecidableEq

def RenderError.message : RenderError → String
  | noPackage => "gen: package name required"
  | malformed => "gen: format: names or tags are not valid"

def keywords : List String :=
  ["break", "case", "chan", "const", "continue", "default", "defer", "else", "fallthrough", "for", "func",
    "go", "goto", "if", "import", "interface", "map", "package", "range", "return", "select", "struct",
    "switch", "type", "var"]

def isNameStart (c : Char) : Bool := Text.isLetter c || c == '_'

def isIdentifier (name : String) : Bool :=
  match name.toList with
  | [] => false
  | c :: rest =>
    isNameStart c && rest.all (fun d => isNameStart d || Text.isNumeral d) &&
      !keywords.contains name

def isTypeName (name : String) : Bool :=
  match Text.split '.' name with
  | [one] => isIdentifier one
  | [package, member] => isIdentifier package && isIdentifier member
  | _ => false

def opensElement (text : List Char) : Bool :=
  match text.dropWhile (· == '*') with
  | ['['] => true
  | 'm' :: 'a' :: 'p' :: '[' :: key => isTypeName (String.ofList key)
  | _ => false

def isTypeText (text : String) : Bool :=
  match (Text.split ']' text).reverse with
  | [] => false
  | last :: opened =>
    isTypeName (String.ofList (last.toList.dropWhile (· == '*'))) && opened.all (opensElement ·.toList)

def isEmbedded (text : String) : Bool :=
  match text.toList with
  | '*' :: name => isTypeName (String.ofList name)
  | _ => isTypeName text

def isEmbeddable : GoType → Bool
  | .ident text _ => isEmbedded text
  | .pointer (.ident text _) => isTypeName text
  | .absent | .pointer .absent => true
  | _ => false

def isField (goName : String) (type : GoType) (writable : Bool) : Bool :=
  if goName == "" then isEmbeddable type
  else
    match type with
    | .ident "" _ => isEmbedded goName
    | _ => isIdentifier goName && writable

def tagText (jsonName : String) (omitEmpty : Bool) : String :=
  "json:" ++ Text.Quoted.quote (if omitEmpty then jsonName ++ ",omitempty" else jsonName)

mutual
def isWritable : GoType → Bool
  | .ident text _ => isTypeText text
  | .slice element | .map element | .pointer element => isWritable element
  | .struct fields => areWritable fields
  | .absent => true

def areWritable : List (Field GoType) → Bool
  | [] => true
  | ⟨goName, jsonName, type, omitEmpty, _⟩ :: rest =>
    isField goName type (isWritable type) &&
      !(tagText jsonName omitEmpty).toList.contains (Char.ofNat 96) && areWritable rest
end

def backQuoted (text : String) : String :=
  let mark := String.singleton (Char.ofNat 96)
  mark ++ text ++ mark

def defaultComment (default? : Option Value) : String :=
  match default?.bind (·.document?) with
  | some text => " // default: " ++ text
  | none => ""

def around (before : String) (lines : List String) (after : String) : List String :=
  let opened := match lines with
    | [] => [before]
    | first :: rest => (before ++ first) :: rest
  match opened.getLast? with
  | none => [before ++ after]
  | some last => opened.dropLast ++ [last ++ after]

mutual
def typeLines : GoType → List String
  | .ident name _ => [name]
  | .slice element => around "[]" (typeLines element) ""
  | .map element => around "map[string]" (typeLines element) ""
  | .pointer element => around "*" (typeLines element) ""
  | .struct fields => "struct \x7b" :: (fieldLines fields).map ("\t" ++ ·) ++ ["\x7d"]
  | .absent => ["any"]

def fieldLines : List (Field GoType) → List String
  | [] => []
  | ⟨goName, jsonName, type, omitEmpty, default?⟩ :: rest =>
    let name := if goName == "" then "" else goName ++ " "
    around name (typeLines type)
    (" " ++ backQuoted (tagText jsonName omitEmpty) ++ defaultComment default?) ++
      fieldLines rest
end

def declLines (d : Decl) : List String :=
  "" :: (if d.comment == "" then [] else commentLines d.comment) ++
    around ("type " ++ d.name ++ " ") (typeLines d.type) ""

def importLines (packages : List String) : List String :=
  if packages.isEmpty then []
  else ["", "import ("] ++ packages.map (fun p => "\t" ++ Text.Quoted.quote p) ++ [")"]

def isImportPath (path : String) : Bool :=
  let refused := "!\"#$%&()*,:;<=>?[\\]^\x7b|\x7d".toList ++
      [Char.ofNat 39, Char.ofNat 96, Char.ofNat 0xFFFD]
  path.toList.all fun c => Text.isGraphic c && !Text.isBlank c && !refused.contains c

def render (package : String) (decls : List Decl) : Except RenderError (List String) :=
  if package == "" then .error .noPackage
  else
    let packages := (Entries.ofList ((decls.flatMap (·.type.packages)).map fun p => (p, ()))).map (·.1)
    if !(isIdentifier package && packages.all isImportPath &&
        decls.all fun d => isIdentifier d.name && isWritable d.type) then .error .malformed
    else .ok (["// Code generated by schematype. DO NOT EDIT.", "", "package " ++ package] ++
    importLines packages ++
      decls.flatMap declLines)

end JsonShape.Declaration
