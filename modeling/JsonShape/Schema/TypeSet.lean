import JsonShape.Json.Quoted

/-! The value of the `type` keyword: absent, one name, or a list of names. The forms derive
differently, so a list of one name is not the name. -/
namespace JsonShape

inductive TypeSet where
  | absent
  | one (name : String)
  | list (names : List String)
  deriving DecidableEq

namespace TypeSet

def names : TypeSet → List String
  | absent => []
  | one name => [name]
  | list names => names

def isAbsent : TypeSet → Bool
  | absent => true
  | _ => false

def isList : TypeSet → Bool
  | list _ => true
  | _ => false

def single? : TypeSet → Option String
  | one name => some name
  | _ => none

def has (t : TypeSet) (name : String) : Bool := t.names.contains name

def text : TypeSet → String
  | absent => "null"
  | one name => Json.quote name
  | list names => Json.writeList (names.map Json.quote)

end TypeSet

end JsonShape
