import JsonShape.Declaration.GoType
import JsonShape.Shape.Equality
import JsonShape.Shape.Reach
import JsonShape.Text.Camel

/-! Declarations for shapes: one for each named shape and one for each handle that they reach. -/
namespace JsonShape.Declaration

/-- The names given to handles, and all names that are taken. -/
structure Names where
  handles : List (Nat × String) := []
  taken : List String := []

abbrev Lower := StateM Names

def exportedName (text : String) : String :=
  let camel := Text.Camel.ofText text
  match camel.toList with
  | [] => "Field"
  | c :: rest =>
    if Text.isDigit c then "X" ++ camel
    else String.ofList ((if Text.isLower c then Char.ofNat (c.toNat - 32) else c) :: rest)

def numbered (taken : List String) (name : String) : Nat → Nat → String
  | 0, i => name ++ toString i
  | budget + 1, i =>
    let candidate := name ++ toString i
    if taken.contains candidate then numbered taken name budget (i + 1) else candidate

def untaken (taken : List String) (name : String) : String :=
  if taken.contains name then numbered taken name taken.length 2 else name

def takeName (name : String) : Lower String := modifyGet fun s =>
  let given := untaken s.taken name
  (given, { s with taken := given :: s.taken })

def handleName (g : Graph) (id : Nat) : Lower String := do
  match (← get).handles.find? (·.1 == id) with
  | some (_, name) => return name
  | none =>
    let name ← takeName (exportedName (g.nameOf id))
    modify fun s => { s with handles := (id, name) :: s.handles }
    return name

def isStructHandle (g : Graph) : Shape → Bool
  | .handle id =>
    match g.deref (.handle id) with
    | .object _ (_ :: _) _ => true
    | _ => false
  | _ => false

def isNull : Shape → Bool
  | .null | .literal _ .null => true
  | _ => false

def literalType (v : Value) : GoType :=
  match v.literalKind with
  | .string => .ident "string" ""
  | .boolean => .ident "bool" ""
  | .number => .ident "float64" ""
  | _ => .any

mutual
def lower (g : Graph) : Shape → Lower GoType
  | .handle id => do return .ident (← handleName g id) ""
  | .string => return .ident "string" ""
  | .boolean => return .ident "bool" ""
  | .number integer => return .ident (if integer then "int64" else "float64") ""
  | .dateTime _ _ => return .ident "time.Time" "time"
  | .binary => return .slice (.ident "byte" "")
  | .literal _ v => return literalType v
  | .array _ items => do return .slice (← lower g items)
  | .object _ props extra? =>
    if props.isEmpty then do return .map (← lowerExtra g extra?)
    else do return .struct (← lowerFields g [] props)
  | .union _ _ members => do
    let base ← lowerMembers g ((members.filter fun m => !isNull m).length > 1) none members
    return if members.any isNull && !base.isNilable then .pointer base else base
  | .any | .never | .null | .intersection _ _ => return .any

def lowerExtra (g : Graph) : Option Shape → Lower GoType
  | none => return .any
  | some s => lower g s

def lowerFields (g : Graph) (taken : List String) : List (Property Shape) → Lower (List (Field GoType))
  | [] => return []
  | ⟨name, s, optional, default?⟩ :: rest => do
    let goName := untaken taken (exportedName name)
    let type ← lower g s
    let type := if (optional && !type.isNilable) || isStructHandle g s then .pointer type else type
    let fields ← lowerFields g (goName :: taken) rest
    return ⟨goName, name, type, optional, default?.filter fun v => v.literalKind != .null⟩ :: fields

/-- The type that all members share, or any. Members that say null do not count; one member that is
alone gives its type whatever it is. -/
def lowerMembers (g : Graph) (several : Bool) (shared? : Option String) : List Shape → Lower GoType
  | [] => return (shared?.map (GoType.ident · "")).getD .any
  | m :: rest => do
    if isNull m then lowerMembers g several shared? rest
    else
      let type ← lower g m
      if !several then return type
      match type, shared? with
      | .ident name package, none =>
        let result ← lowerMembers g several (some name) rest
        return match result with
          | .ident found _ => if found == name then .ident name package else .any
          | _ => .any
      | .ident name _, some shared =>
        if name == shared then lowerMembers g several shared? rest else return .any
      | _, _ => return .any
end

def nameRoots : List (String × Shape) → Lower (List (String × Shape))
  | [] => return []
  | (name, s) :: rest => do
    let given ← takeName (exportedName name)
    if let .handle id := s then
      modify fun names =>
        if names.handles.any (·.1 == id) then
          names else { names with handles := (id, given) :: names.handles }
    return (given, s) :: (← nameRoots rest)

/-- The declarations of named shapes, in the order of the names. A shape that is a handle gives the
handle its name. -/
def lowerAll (g : Graph) (shapes : List (String × Shape)) : Lower (List Decl) := do
  let roots ← nameRoots shapes
  let own := fun (names : Names) (name : String) (s : Shape) => match s with
    | .handle id => if names.handles.any fun (i, n) => i == id && n == name then some id else none
    | _ => none
  let names ← get
  let declared := roots.filterMap fun (name, s) => own names name s
  let first ← roots.mapM fun (name, s) => do
    let type ← match own names name s with
      | some id =>
        match g.target? id with
        | some target => lower g target
        | none => pure .any
      | none => lower g s
    return (⟨name, type, g.format s⟩ : Decl)
  let others := ((shapes.flatMap fun (_, s) => g.handlesIn s).filter fun id =>
      !declared.contains id).eraseDups
  let second ← others.mapM fun id => do
    let name ← handleName g id
    let type ← match g.target? id with
      | some target => lower g target
      | none => pure .any
    return (⟨name, type, ""⟩ : Decl)
  return first ++ second

def ofShapes (g : Graph) (shapes : List (String × Shape)) : List Decl :=
  ((lowerAll g (Entries.ofList shapes)).run {}).1

end JsonShape.Declaration
