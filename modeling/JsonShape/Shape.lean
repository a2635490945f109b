import JsonShape.Value

/-! Shapes: what values look like. Recursive shapes are closed through handles, which are numbers
of bound shapes in a graph. -/
namespace JsonShape

structure Property (α : Type) where
  name : String
  shape : α
  optional : Bool
  default? : Option Value

/-- A shape. The serial number tells apart shapes that were built separately: two shapes are the
same one only if their serial numbers agree. Objects are open; undeclared entries must have the
extra shape if there is one. -/
inductive Shape where
  | any
  | never
  | null
  | boolean
  | number (integer : Bool)
  | string
  | binary
  | dateTime (serial : Nat) (format : String)
  | literal (serial : Nat) (value : Value)
  | array (serial : Nat) (items : Shape)
  | object (serial : Nat) (props : List (Property Shape)) (extra? : Option Shape)
  | union (serial : Nat) (inclusive : Bool) (members : List Shape)
  | intersection (serial : Nat) (members : List Shape)
  | handle (id : Nat)

inductive Kind where
  | any | never | null | boolean | number | string | dateTime | binary | literal | array | object
  | union | intersection | named
  deriving DecidableEq

namespace Kind

def name : Kind → String
  | any => "any"
  | never => "never"
  | null => "null"
  | boolean => "boolean"
  | number => "number"
  | string => "string"
  | dateTime => "datetime"
  | binary => "binary"
  | literal => "literal"
  | array => "array"
  | object => "object"
  | union => "union"
  | intersection => "intersection"
  | named => "named"

def all : List Kind :=
  [any, never, null, boolean, number, string, dateTime, binary, literal, array, object, union,
    intersection, named]

/-- The name of the kind with a number; none has a negative one. -/
def nameOfNumber? (n : Int) : Option String :=
  if n < 0 then none else some ((all[n.toNat]?.map name).getD "unknown")

end Kind

namespace Shape

def kind : Shape → Kind
  | any => .any
  | never => .never
  | null => .null
  | boolean => .boolean
  | number _ => .number
  | string => .string
  | binary => .binary
  | dateTime _ _ => .dateTime
  | literal _ _ => .literal
  | array _ _ => .array
  | object _ _ _ => .object
  | union _ _ _ => .union
  | intersection _ _ => .intersection
  | handle _ => .named

mutual
def size : Shape → Nat
  | array _ items => items.size + 1
  | object _ props extra? => propertiesSize props + optionSize extra? + 1
  | union _ _ members => membersSize members + 1
  | intersection _ members => membersSize members + 1
  | _ => 1

def propertiesSize : List (Property Shape) → Nat
  | [] => 0
  | ⟨_, s, _, _⟩ :: rest => s.size + propertiesSize rest

def optionSize : Option Shape → Nat
  | none => 0
  | some s => s.size

def membersSize : List Shape → Nat
  | [] => 0
  | s :: rest => s.size + membersSize rest
end

def sortProperties (props : List (Property Shape)) : List (Property Shape) :=
  props.mergeSort fun p q => decide (p.name ≤ q.name)

def property? (props : List (Property Shape)) (name : String) : Option (Property Shape) :=
  props.find? (·.name == name)

end Shape

structure Handle where
  name : String
  ref : String
  target? : Option Shape

/-- The handles of some shapes, and the first serial number that is free. -/
structure Graph where
  handles : Array Handle := #[]
  next : Nat := 0

namespace Graph

def target? (g : Graph) (id : Nat) : Option Shape := g.handles[id]?.bind (·.target?)

def nameOf (g : Graph) (id : Nat) : String := (g.handles[id]?.map (·.name)).getD ""

def size (g : Graph) : Nat := g.handles.foldl (fun n h => n + (h.target?.map (·.size)).getD 0) 0

def declare (g : Graph) (name ref : String) : Nat × Graph :=
  (g.handles.size, { g with handles := g.handles.push ⟨name, ref, none⟩ })

def bind (g : Graph) (id : Nat) (target : Shape) : Graph :=
  { g with handles := g.handles.modify id fun h => { h with target? := some target } }

/-- Follows handles to another shape. Where they lead nowhere or around, everything is accepted. -/
def follow (g : Graph) : Nat → Shape → Shape
  | 0, _ => .any
  | budget + 1, .handle id =>
    match g.target? id with
    | some s => g.follow budget s
    | none => .any
  | _ + 1, s => s

def deref (g : Graph) (s : Shape) : Shape := g.follow (g.handles.size + 1) s

end Graph

end JsonShape
