import JsonShape.Schema.TypeSet
import JsonShape.Value

/-! Schemas: trees of the keywords that say something about the shape of values. -/
namespace JsonShape

/-- The keywords of one schema; an absent text is empty. Lists and maps tell absent from empty, and
`none` inside them is a null subschema. -/
structure Keywords (α : Type) where
  /-- The boolean schemas accept everything or nothing, whatever else is set. -/
  boolean? : Option Bool := none
  id : String := ""
  dialect : String := ""
  ref : String := ""
  title : String := ""
  description : String := ""
  type : TypeSet := .absent
  format : String := ""
  enum? : Option (List Value) := none
  const? : Option Value := none
  default? : Option Value := none
  properties? : Option (List (String × Option α)) := none
  required? : Option (List String) := none
  additionalProperties? : Option α := none
  items? : Option α := none
  defs? : Option (List (String × Option α)) := none
  definitions? : Option (List (String × Option α)) := none
  anyOf? : Option (List (Option α)) := none
  oneOf? : Option (List (Option α)) := none
  allOf? : Option (List (Option α)) := none

inductive Schema where
  | node (keywords : Keywords Schema)

namespace Schema

def keywords : Schema → Keywords Schema
  | node k => k

def ofBool (b : Bool) : Schema := node { boolean? := some b }

def empty : Schema := node {}

def withId (s : Schema) (id : String) : Schema := node { s.keywords with id := id }

end Schema

namespace Keywords

variable {α : Type}

def isRequired (k : Keywords α) (name : String) : Bool := (k.required?.getD []).contains name

def declaresType (k : Keywords α) (names : List String) : Bool := names.any k.type.has

end Keywords

end JsonShape
