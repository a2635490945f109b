import JsonShape.Issue
import JsonShape.Json.Reader
import JsonShape.Shape.Reach
import JsonShape.Shape.Equality

/-! Conformance: how a value fails to have a shape. -/
namespace JsonShape

namespace Value

mutual
def size : Value → Nat
  | seq _ items => itemsSize items + 1
  | map _ entries => entriesSize entries + 1
  | ref (some v) => v.size + 1
  | _ => 1

def itemsSize : List Value → Nat
  | [] => 0
  | v :: rest => v.size + itemsSize rest

def entriesSize : List (String × Value) → Nat
  | [] => 0
  | (_, v) :: rest => v.size + entriesSize rest
end

def items? : Value → Option (List Value)
  | seq _ items => some items
  | _ => none

def entries? : Value → Option (List (String × Value))
  | map kind entries => if kind.isKeyedByText then some entries else none
  | _ => none

end Value

namespace Conformance

abbrev Findings := Except Fault (List Issue)

/-- The handles that were opened, with the pointers at which they were. -/
abbrev Opened := List (Nat × String)

def mismatch (p : Path) (expected : String) (v : Value) : List Issue :=
  [.atPath p .invalidType ("expected " ++ expected ++ ", got " ++ v.typeName)
    [("expected", .string expected), ("got", .string v.typeName)]]

def fitsKind (v : Value) : Kind → Bool
  | .null => match v with
    | .null => true
    | _ => false
  | .boolean => match v with
    | .bool _ => true
    | _ => false
  | .number => v.isNumber
  | .string => v.isText
  | .dateTime => match v with
    | .time _ => true
    | _ => false
  | .binary => v.isBinary
  | _ => false

def checkEach {α : Type} (check : α → Findings) : List α → Findings
  | [] => return []
  | a :: rest => do
    let first ← check a
    return first ++ (← checkEach check rest)

def acceptsSome (check : Shape → Findings) : List Shape → Except Fault Bool
  | [] => return false
  | s :: rest => do
    if (← check s).isEmpty then return true else acceptsSome check rest

def missing (p : Path) (name : String) : Issue :=
  .atPath (p.field name) .required ("required property " ++ name ++ " is missing")
    [("property", .string name)]

def checkProperty (check : Shape → Value → Path → Findings) (entries : List (String × Value)) (p : Path)
    (prop : Property Shape) : Findings :=
  match Entries.get? entries prop.name with
  | some v => check prop.shape v (p.field prop.name)
  | none => return if prop.optional then [] else [missing p prop.name]

def checkExtra (check : Shape → Value → Path → Findings) (entries : List (String × Value)) (p : Path)
    (props : List (Property Shape)) (extra : Shape) : Findings :=
  let undeclared := entries.filter fun (key, _) => (Shape.property? props key).isNone
  checkEach (fun (key, v) => check extra v (p.field key)) undeclared

/-- How a value fails to have a shape. A handle that is met again at the same place has no concrete
shape there. -/
def check (g : Graph) : Nat → Opened → Shape → Value → Path → Findings
  | 0, _, _, _, _ => throw .exhausted
  | budget + 1, opened, s, v, p =>
    let v := v.settle
    match s with
    | .any => return []
    | .handle id =>
      if opened.contains (id, p.pointer) then
        return [.atPath p .invalidType ("recursive type " ++ g.nameOf id ++ " has no concrete shape")
          [("expected", .string (g.nameOf id))]]
      else
        match g.target? id with
        | none => return []
        | some target => check g budget ((id, p.pointer) :: opened) target v p
    | .union _ _ members => do
      if ← acceptsSome (fun m => check g budget opened m v p) members then return []
      let expected := g.shapeText s
      return [.atPath p .noMatch ("value matches no member of " ++ expected)
        [("expected", .string expected)]]
    | .intersection _ members => checkEach (fun m => check g budget opened m v p) members
    | .literal _ w => do
      if ← v.plain.matchesLiteral w then return []
      return [.atPath p .invalidLiteral ("expected " ++ g.shapeText s) [("expected", w)]]
    | .array _ items =>
      match v.items? with
      | none => return mismatch p "array" v
      | some vs => checkEach (fun (v, i) => check g budget opened items v (p.index i)) vs.zipIdx
    | .object _ props extra? =>
      match v.entries? with
      | none => return mismatch p "object" v
      | some entries => do
        let declared ← checkEach (checkProperty (check g budget opened) entries p) props
        let rest ← match extra? with
          | none => pure []
          | some extra => checkExtra (check g budget opened) entries p props extra
        return declared ++ rest
    | s => return if fitsKind v s.kind then [] else mismatch p (g.shapeText s) v

/-- A budget that suffices: a handle is opened at most once at each place of the value, and between
two openings the shape gets smaller. -/
def checkBudget (g : Graph) (s : Shape) (v : Value) : Nat :=
  (g.handles.size * (v.size + 1) + 1) * (g.size + s.size + 1) + 1

def issues (g : Graph) (s : Shape) (v : Value) : Findings := check g (checkBudget g s v) [] s v .root

def conforms (g : Graph) (s : Shape) (v : Value) : Except Fault Bool := do
  return (← issues g s v).isEmpty

/-- Checks the value at the start of a JSON text; what follows it is not read. -/
def issuesOfText (g : Graph) (s : Shape) (source : String) : Findings :=
  match (Json.Tree.ofLeading? .lenient source).bind (·.value?) with
  | some v => issues g s v
  | none => return [{ path := "/", code := .parseError, message := "invalid JSON" }]

end Conformance

end JsonShape
