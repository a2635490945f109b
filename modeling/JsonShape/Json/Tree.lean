import JsonShape.Entries
import JsonShape.Number.Reading
import JsonShape.Value

/-! Trees: a document as it is written. A member of an object keeps the text of its value. -/
namespace JsonShape.Json

inductive Tree where
  | null
  | bool (b : Bool)
  | number (text : String)
  | string (s : String)
  | array (items : List Tree)
  | object (members : List (String × String × Tree))

def isInRange (text : String) : Bool :=
  match Number.readFloat .double text with
  | .value _ => true
  | _ => false

mutual
/-- The value of a tree; of two members with one key the later counts. A number out of range has
no value. -/
def Tree.value? : Tree → Option Value
  | .null => some .null
  | .bool b => some (.bool b)
  | .number text => if isInRange text then some (.decimal text) else none
  | .string s => some (.string s)
  | .array items => (itemValues? items).map (.seq .values)
  | .object members => (memberValues? members).map fun entries => .map .values (Entries.ofList entries)

def itemValues? : List Tree → Option (List Value)
  | [] => some []
  | t :: rest => do
    let v ← t.value?
    let vs ← itemValues? rest
    some (v :: vs)

def memberValues? : List (String × String × Tree) → Option (List (String × Value))
  | [] => some []
  | (key, _, t) :: rest => do
    let v ← t.value?
    let vs ← memberValues? rest
    some ((key, v) :: vs)
end

end JsonShape.Json
