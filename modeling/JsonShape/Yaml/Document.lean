import JsonShape.Number.Reading
import JsonShape.Number.Shortest
import JsonShape.Schema.Decode
import JsonShape.Yaml.Node

/-! Documents: the values of the nodes of a stream, and the schemas that are written that way. -/
namespace JsonShape.Yaml
open Number

def isNullWord (text : String) : Bool := ["", "~", "null", "Null", "NULL"].contains text

def boolWord? (text : String) : Option Bool :=
  if ["true", "True", "TRUE"].contains text then some true
  else if ["false", "False", "FALSE"].contains text then some false
  else none

def integer? (text : String) : Option Value :=
  match readInteger? text with
  | some n => if fitsSigned64 n then some (.decimal (toString n)) else none
  | none => none

def float? (text : String) : Option Value :=
  match readFloat .double text with
  | .value x => some (.decimal (x.text .double))
  | _ => none

def isDecimalForm (cs : List Char) : Bool :=
  let unsigned := match cs with
    | '-' :: rest => rest
    | '+' :: rest => rest
    | _ => cs
  let whole := unsigned.takeWhile Text.isDigit
  let rest := unsigned.drop whole.length
  let fraction? := match rest with
    | '.' :: more =>
      let digits := more.takeWhile Text.isDigit
      if whole.isEmpty && digits.isEmpty then none else some (more.drop digits.length)
    | _ => if whole.isEmpty then none else some rest
  match fraction? with
  | none => false
  | some [] => true
  | some (mark :: more) =>
    let digits := match more with
      | '+' :: digits => digits
      | '-' :: digits => digits
      | digits => digits
    (mark == 'e' || mark == 'E') && !digits.isEmpty && digits.all Text.isDigit

def suggestedTag (text : String) : String :=
  if isNullWord text then "!!null"
  else if (boolWord? text).isSome then "!!bool"
  else
    match text.toList with
    | [] => "!!null"
    | c :: _ =>
      if c == '.' then (if (float? text).isSome then "!!float" else "!!str")
      else if Text.isDigit c || c == '+' || c == '-' then
        let digits := text.toList.filter (· != '_')
        let bare := String.ofList digits
        let isInteger := match readInteger? bare with
          | some n => fitsSigned64 n || (Text.isDigit c && fitsUnsigned64 n)
          | none => false
        if isInteger then "!!int"
        else if isDecimalForm digits && (float? bare).isSome then "!!float"
        else "!!str"
      else "!!str"

def scalarValue (tag text : String) : Value :=
  match if tag == "" then suggestedTag text else tag with
  | "!!null" => .null
  | "!!bool" => ((boolWord? text).map Value.bool).getD (.string text)
  | "!!int" => (integer? text).getD (.string text)
  | "!!float" => (float? text).getD (.string text)
  | _ => .string text

def positionOf (mark : Mark) : Position := ⟨mark.line + 1, mark.column + 1⟩

mutual
/-- The value of a node. A repeated key is an error. -/
def Node.value : Node → Except RepeatedKey Value
  | .scalar _ tag text => .ok (scalarValue tag text)
  | .aliasOf _ _ target => target.value
  | .sequence _ items => do .ok (.seq .values (← itemValues items))
  | .mapping _ entries => do .ok (.map .values (Entries.ofList (← entryValues [] entries)))

def itemValues : List Node → Except RepeatedKey (List Value)
  | [] => .ok []
  | node :: rest => do
    let v ← node.value
    .ok (v :: (← itemValues rest))

def entryValues (seen : List (String × Mark)) :
    List (Node × Node) → Except RepeatedKey (List (String × Value))
  | [] => .ok []
  | (key, node) :: rest => do
    match seen.find? (·.1 == key.keyText) with
    | some (_, first) => .error (.between key.keyText (positionOf first) (positionOf key.start))
    | none =>
      let v ← node.value
      .ok ((key.keyText, v) :: (← entryValues ((key.keyText, key.start) :: seen) rest))
end

def readValues : Nat → Bool → Progress → List Value × Option LoadError
  | 0, _, _ => ([], none)
  | budget + 1, first, p =>
    match (readDocument first).run p with
    | .error e => ([], some (.yamlSyntax e))
    | .ok (none, _) => ([], none)
    | .ok (some node, p) =>
      match node.value with
      | .error repeated => ([], some (.repeatedKey repeated))
      | .ok v =>
        let (more, error?) := readValues budget false p
        (v :: more, error?)

def values (text : String) : List Value × Option LoadError :=
  let tokens := Tokens.ofText text
  readValues (tokens.tokens.size + 2) true { tokens }

end JsonShape.Yaml

namespace JsonShape.Schema

def ofDocuments : List (Value × Nat) → Except LoadError (List Schema)
  | [] => .ok []
  | (.null, _) :: rest => ofDocuments rest
  | (v, index) :: rest => do
    match v.document? with
    | none => .error (.unwritableDocument index)
    | some text =>
      let s ← (ofJson text).mapError (.inDocument index)
      .ok (s :: (← ofDocuments rest))

def allOfYaml (text : String) : Except LoadError (List Schema) :=
  match Yaml.values text with
  | (_, some error) => .error error
  | (vs, none) => ofDocuments vs.zipIdx

def ofYaml (text : String) : Except LoadError Schema := do
  match ← allOfYaml text with
  | s :: _ => .ok s
  | [] => .error .noDocument

end JsonShape.Schema
