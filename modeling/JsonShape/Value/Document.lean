import JsonShape.Bytes.Base64
import JsonShape.Json.Quoted
import JsonShape.Number.Shortest
import JsonShape.Value

/-! The document text of a value, where it has one. -/
namespace JsonShape.Value
open Number

def isSpelled (text : String) : Bool :=
  text.toList.all fun c => Text.isDigit c || c == '.' || c == 'e' || c == 'E' || c == '+' || c == '-'

def momentText? (t : Time.Moment) : Option String :=
  let year := t.clock.date.year
  if year < 0 || year > 9999 || t.zone.offset.natAbs ≥ 86400 then none
  else some (Json.quote t.rfc3339)

mutual
def document? : Value → Option String
  | null | timeRef none | ref none => some "null"
  | bool b => some (if b then "true" else "false")
  | string s | namedString _ s => some (Json.quote s)
  | decimal text => if text == "" then some "0" else if isSpelled text then some text else none
  | int _ n => some (toString n)
  | single x => x.documentText? .single
  | double x => x.documentText? .double
  | time t | timeRef (some t) => momentText? t
  | bytes bs | namedBytes _ bs => some (Json.quote (Bytes.Base64.encode bs))
  | record _ fields => some (Json.writeMembers (fields.map fun field => (field.1, toString field.2)))
  | seq _ items => (documentItems? items).map Json.writeList
  | map _ entries => (documentEntries? entries).map Json.writeObject
  | ref (some v) => v.document?

def documentItems? : List Value → Option (List String)
  | [] => some []
  | v :: rest => do
    let text ← v.document?
    let texts ← documentItems? rest
    some (text :: texts)

def documentEntries? : List (String × Value) → Option (List (String × String))
  | [] => some []
  | (key, v) :: rest => do
    let text ← v.document?
    let texts ← documentEntries? rest
    some ((key, text) :: texts)
end

end JsonShape.Value
