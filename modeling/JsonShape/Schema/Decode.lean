import JsonShape.Duplicate
import JsonShape.Json.Reader
import JsonShape.Schema.Location
import JsonShape.Text.Quoted
import JsonShape.Value.Document

/-! Reading schemas from documents. Repeated keys are refused, keywords that say nothing about
shapes are ignored, and the first keyword with a value of the wrong form is an error. -/
namespace JsonShape

structure Position where
  line : Nat
  column : Nat
  deriving DecidableEq

inductive RepeatedKey where
  | inObject (key path : String)
  | between (key : String) (first second : Position)
  deriving DecidableEq

namespace RepeatedKey

def key : RepeatedKey → String
  | inObject key _ => key
  | between key _ _ => key

def path : RepeatedKey → String
  | inObject _ path => path
  | between _ _ _ => ""

def positionText (p : Position) : String := toString p.line ++ ":" ++ toString p.column

def message : RepeatedKey → String
  | inObject key path => "duplicate JSON key " ++ Text.Quoted.quote key ++ " in object at " ++ path
  | between key first second =>
    "duplicate YAML key " ++ Text.Quoted.quote key ++ " at " ++ positionText second ++
      " (first at " ++ positionText first ++ ")"

end RepeatedKey

inductive DecodeError where
  | notSchema
  | typeForm (text : String)
  | typeItems
  | keyword (name : String)
  deriving DecidableEq

def DecodeError.message : DecodeError → String
  | notSchema => "jsonschema: schema must be an object or a boolean: other kind of value"
  | typeForm text => "jsonschema: type must be a string or an array, got " ++ text
  | typeItems => "jsonschema: type array must hold strings: other kind of value"
  | keyword name => "value of " ++ name ++ " does not fit"

inductive LoadError where
  | repeatedKey (repeated : RepeatedKey)
  | invalidJson
  | decode (error : DecodeError)
  | absent
  | unwritable
  | yamlSyntax (detail : String)
  | noDocument
  | unwritableDocument (index : Nat)
  | inDocument (index : Nat) (error : LoadError)

namespace LoadError

def message : LoadError → String
  | repeatedKey repeated => repeated.message
  | invalidJson => "jsonschema: invalid JSON: unexpected character or end"
  | decode error => "jsonschema: decode: " ++ error.message
  | absent => "jsonschema: nil schema"
  | unwritable => "jsonschema: cannot marshal input: unsupported value"
  | yamlSyntax detail => "yaml: " ++ detail
  | noDocument => "jsonschema: YAML stream holds no document"
  | unwritableDocument index =>
    "jsonschema: YAML document " ++ toString index ++ ": json: unsupported value"
  | inDocument index error => "jsonschema: YAML document " ++ toString index ++ ": " ++ error.message

def repeatedKey? : LoadError → Option RepeatedKey
  | repeatedKey repeated => some repeated
  | inDocument _ error => error.repeatedKey?
  | _ => none

def issue (error : LoadError) : Issue :=
  match error.repeatedKey? with
  | some repeated =>
    let positions : List (String × Value) := match repeated with
      | .between _ _ second => [("line", .int "int" second.line), ("col", .int "int" second.column)]
      | .inObject _ _ => []
    let params := ("key", .string repeated.key) :: positions
    { Issue.atPath (.ofPointer repeated.path) .duplicateKey repeated.message params with
      cause? := some error.message }
  | none => { path := "/", code := .parseError, message := error.message, cause? := some error.message }

end LoadError

def Json.names? : List Json.Tree → Option (List String)
  | [] => some []
  | .string s :: rest => (names? rest).map (s :: ·)
  | .null :: rest => (names? rest).map ("" :: ·)
  | _ => none

def TypeSet.ofTree (text : String) : Json.Tree → Except DecodeError TypeSet
  | .null => .ok .absent
  | .string name => .ok (.one name)
  | .array items =>
    match Json.names? items with
    | some names => .ok (.list names)
    | none => .error .typeItems
  | _ => .error (.typeForm text)

def TypeSet.ofText (text : String) : Except LoadError TypeSet :=
  let trimmed := Text.trimBlanks text.toList
  if trimmed.isEmpty || trimmed == "null".toList then .ok .absent
  else
    let source := String.ofList trimmed
    match trimmed, Json.Tree.ofText? .lenient source with
    | '\"' :: _, some tree | '[' :: _, some tree => (TypeSet.ofTree source tree).mapError .decode
    | '\"' :: _, none => .error .invalidJson
    | '[' :: _, none => .error (.decode .typeItems)
    | _, _ => .error (.decode (.typeForm source))

namespace Schema
open Json

def keywordName (name : String) : String :=
  if name == "additionalproperties" then "additionalProperties"
  else if name == "anyof" then "anyOf"
  else if name == "oneof" then "oneOf"
  else if name == "allof" then "allOf"
  else name

def textOf (name : String) : Tree → Except DecodeError String
  | .string s => .ok s
  | .null => .ok ""
  | _ => .error (.keyword name)

mutual
/-- The schema of a tree; null is no schema. -/
def ofTree : Tree → Except DecodeError (Option Schema)
  | .null => .ok none
  | .bool b => .ok (some (ofBool b))
  | .object members => do
    let k ← decodeMembers {} members
    .ok (some (.node k))
  | _ => .error .notSchema

/-- Reads the keywords in the order of the document, except that the values of `const` and
`default` are looked at last. -/
def decodeMembers (k : Keywords Schema) :
    List (String × String × Tree) → Except DecodeError (Keywords Schema)
  | [] => .ok k
  | (name, text, tree) :: rest => do
    match keywordName name with
    | "$id" => decodeMembers { k with id := ← textOf name tree } rest
    | "$schema" => decodeMembers { k with dialect := ← textOf name tree } rest
    | "$ref" => decodeMembers { k with ref := ← textOf name tree } rest
    | "title" => decodeMembers { k with title := ← textOf name tree } rest
    | "description" => decodeMembers { k with description := ← textOf name tree } rest
    | "format" => decodeMembers { k with format := ← textOf name tree } rest
    | "type" => decodeMembers { k with type := ← TypeSet.ofTree text tree } rest
    | "enum" =>
      match tree with
      | .null => decodeMembers { k with enum? := none } rest
      | .array items =>
        match itemValues? items with
        | some values => decodeMembers { k with enum? := some values } rest
        | none => .error (.keyword name)
      | _ => .error (.keyword name)
    | "required" =>
      match tree with
      | .null => decodeMembers { k with required? := none } rest
      | .array items =>
        match names? items with
        | some names => decodeMembers { k with required? := some names } rest
        | none => .error (.keyword name)
      | _ => .error (.keyword name)
    | "properties" => decodeMembers { k with properties? := ← namedSchemas name tree } rest
    | "$defs" => decodeMembers { k with defs? := ← namedSchemas name tree } rest
    | "definitions" => decodeMembers { k with definitions? := ← namedSchemas name tree } rest
    | "additionalProperties" => decodeMembers { k with additionalProperties? := ← ofTree tree } rest
    | "items" => decodeMembers { k with items? := ← ofTree tree } rest
    | "anyOf" => decodeMembers { k with anyOf? := ← listedSchemas name tree } rest
    | "oneOf" => decodeMembers { k with oneOf? := ← listedSchemas name tree } rest
    | "allOf" => decodeMembers { k with allOf? := ← listedSchemas name tree } rest
    | "const" => do
      let k ← decodeMembers k rest
      match tree.value? with
      | some v => .ok { k with const? := some v }
      | none => .error (.keyword name)
    | "default" => do
      let k ← decodeMembers k rest
      match tree.value? with
      | some v => .ok { k with default? := some v }
      | none => .error (.keyword name)
    | _ => decodeMembers k rest

def namedSchemas (name : String) : Tree → Except DecodeError (Option (List (String × Option Schema)))
  | .null => .ok none
  | .object members => do .ok (some (Entries.ofList (← memberSchemas members)))
  | _ => .error (.keyword name)

def memberSchemas : List (String × String × Tree) → Except DecodeError (List (String × Option Schema))
  | [] => .ok []
  | (key, _, tree) :: rest => do
    let s ← ofTree tree
    .ok ((key, s) :: (← memberSchemas rest))

def listedSchemas (name : String) : Tree → Except DecodeError (Option (List (Option Schema)))
  | .null => .ok none
  | .array items => do .ok (some (← itemSchemas items))
  | _ => .error (.keyword name)

def itemSchemas : List Tree → Except DecodeError (List (Option Schema))
  | [] => .ok []
  | tree :: rest => do
    let s ← ofTree tree
    .ok (s :: (← itemSchemas rest))
end

def ofJson (text : String) : Except LoadError Schema := do
  match Duplicate.find text .error 1 with
  | ⟨.duplicateKey, path, key, _⟩ :: _ => .error (.repeatedKey (.inObject key path))
  | ⟨.parseError, _, _, _⟩ :: _ => .error .invalidJson
  | _ =>
    match Tree.ofText? .lenient text with
    | none => .error .invalidJson
    | some tree =>
      match ofTree tree with
      | .ok s => .ok (s.getD empty)
      | .error e => .error (.decode e)

def ofValue (v : Value) : Except LoadError Schema :=
  match v with
  | .null => .error .absent
  | v =>
    match v.document? with
    | some text => ofJson text
    | none => .error .unwritable

end Schema

end JsonShape
