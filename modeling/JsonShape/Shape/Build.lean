import JsonShape.Fault
import JsonShape.Shape.Equality

/-! Building shapes. What is built gets a serial number of its own; unions come in a normal form. -/
namespace JsonShape

abbrev Fresh := StateT Nat (Except Fault)

def Fresh.serial : Fresh Nat := fun n => .ok (n, n + 1)

namespace Shape

def ofFormat (format : String) : Fresh Shape := do
  return .dateTime (← Fresh.serial) (if format == "" then "date-time" else format)

def ofLiteral (v : Value) : Fresh Shape := do
  return .literal (← Fresh.serial) v

def ofItems (items : Shape) : Fresh Shape := do
  return .array (← Fresh.serial) items

def ofProperties (props : List (Property Shape)) (extra? : Option Shape) : Fresh Shape := do
  return .object (← Fresh.serial) (sortProperties props) extra?

mutual
/-- Takes a shape into the members of a union: unions are taken apart, never adds nothing, a shape
equal to an earlier member adds nothing. A union that would hold any has no members of its own. -/
def addMember (members : List Shape) (s : Shape) : Except Fault (Option (List Shape)) :=
  match s with
  | any => .ok none
  | never => .ok (some members)
  | union _ _ inner => addMembers members inner
  | s => do
    if ← members.anyM fun m => m.equal s then .ok (some members) else .ok (some (members ++ [s]))

def addMembers (members : List Shape) (shapes : List Shape) : Except Fault (Option (List Shape)) :=
  match shapes with
  | [] => .ok (some members)
  | s :: rest => do
    match ← addMember members s with
    | none => .ok none
    | some members => addMembers members rest
end

def unionOf (inclusive : Bool) (shapes : List Shape) : Fresh Shape := do
  match ← addMembers [] shapes with
  | none => return any
  | some [] => return never
  | some [s] => return s
  | some members => return .union (← Fresh.serial) inclusive members

end Shape

end JsonShape
