import JsonShape.Number.Binary
import JsonShape.Time.Moment

/-! Values: the data that shapes describe. Besides the values of a document there are values as a
program holds them: integers, moments, bytes, lists and maps of other types, and references. -/
namespace JsonShape

/-- The list types: lists of any values, and others by their name and whether `==` compares them. -/
inductive SeqKind where
  | values
  | other (type : String) (comparable : Bool)
  deriving DecidableEq

/-- The map types: maps from strings to any values, and others by their name and whether their keys
are strings. -/
inductive MapKind where
  | values
  | other (type : String) (keyedByText : Bool)
  deriving DecidableEq

/-- A value. The entries of a map are in ascending order of their keys. -/
inductive Value where
  | null
  | bool (b : Bool)
  | string (s : String)
  | namedString (type : String) (s : String)
  | decimal (text : String)
  | int (type : String) (n : Int)
  | single (x : Number.Binary)
  | double (x : Number.Binary)
  | time (t : Time.Moment)
  | timeRef (t : Option Time.Moment)
  | bytes (bs : List UInt8)
  | namedBytes (type : String) (bs : List UInt8)
  | record (type : String) (fields : List (String × Int))
  | seq (kind : SeqKind) (items : List Value)
  | map (kind : MapKind) (entries : List (String × Value))
  | ref (target : Option Value)

instance : Inhabited Value := ⟨.null⟩

def SeqKind.isComparable : SeqKind → Bool
  | .values => false
  | .other _ comparable => comparable

def MapKind.isKeyedByText : MapKind → Bool
  | .values => true
  | .other _ keyedByText => keyedByText

/-- The type of a value: what form it has, with the name of its type where that is not fixed. -/
inductive ValueType where
  | null | bool | string | decimal | single | double | time | timeRef | bytes | ref | nilRef
  | namedString (type : String)
  | int (type : String)
  | namedBytes (type : String)
  | record (type : String)
  | seq (kind : SeqKind)
  | map (kind : MapKind)
  deriving DecidableEq

def ValueType.name : ValueType → String
  | null => "null"
  | bool => "bool"
  | string => "string"
  | decimal => "json.Number"
  | single => "float32"
  | double => "float64"
  | time => "time.Time"
  | timeRef => "*time.Time"
  | bytes => "[]uint8"
  | ref => "*interface \x7b\x7d"
  | nilRef => "*string"
  | seq .values => "[]interface \x7b\x7d"
  | map .values => "map[string]interface \x7b\x7d"
  | namedString type | int type | namedBytes type | record type => type
  | seq (.other type _) | map (.other type _) => type

namespace Value

def type : Value → ValueType
  | null => .null
  | bool _ => .bool
  | string _ => .string
  | namedString type _ => .namedString type
  | decimal _ => .decimal
  | int type _ => .int type
  | single _ => .single
  | double _ => .double
  | time _ => .time
  | timeRef _ => .timeRef
  | bytes _ => .bytes
  | namedBytes type _ => .namedBytes type
  | record type _ => .record type
  | seq kind _ => .seq kind
  | map kind _ => .map kind
  | ref (some _) => .ref
  | ref none => .nilRef

def typeName (v : Value) : String := v.type.name

/-- Follows references; one that leads nowhere is null. -/
def settle : Value → Value
  | ref (some v) => v.settle
  | ref none => null
  | timeRef (some t) => time t
  | timeRef none => null
  | v => v

mutual
/-- The form of a value that literals are held in: references followed, lists and maps with text
keys as lists and maps of any values, strings without a name for their type. -/
def plain : Value → Value
  | ref (some v) => v.plain
  | ref none => null
  | timeRef (some t) => time t
  | timeRef none => null
  | namedString _ s => string s
  | seq _ items => seq .values (plainItems items)
  | map kind entries => if kind.isKeyedByText then map .values (plainEntries entries) else map kind entries
  | v => v

def plainItems : List Value → List Value
  | [] => []
  | v :: rest => v.plain :: plainItems rest

def plainEntries : List (String × Value) → List (String × Value)
  | [] => []
  | (key, v) :: rest => (key, v.plain) :: plainEntries rest
end

def isNumber : Value → Bool
  | decimal _ | int _ _ | single _ | double _ => true
  | _ => false

def isText : Value → Bool
  | string _ | namedString _ _ => true
  | _ => false

def isBinary : Value → Bool
  | bytes _ | namedBytes _ _ => true
  | _ => false

end Value

end JsonShape
