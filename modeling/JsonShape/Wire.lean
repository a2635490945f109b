import JsonShape.Conformance
import JsonShape.Shape.Projection
import JsonShape.Wire.Leaf

/-! Conversion of values to and from their wire form, as a shape directs it. Only leaves are
converted; what does not fit the shape is left as it is. -/
namespace JsonShape.Wire

inductive Direction where
  | encode | decode
  deriving DecidableEq

abbrev Convert := StateT (List Issue) (Except Fault)

def note (issue : Issue) : Convert Unit := modify (· ++ [issue])

def settleLeaf (p : Path) : Except Issue Value → Convert Value
  | .ok v => return v
  | .error issue => do
    note { issue with path := p.pointer }
    return .null

def unfit (p : Path) (accepted expected : String) (v : Value) : Convert Value := do
  note (.atPath p .invalidType ("expected " ++ accepted) [("expected", .string expected)])
  return v

def convertTime (direction : Direction) (format : String) (v : Value) (p : Path) : Convert Value :=
  let leaf : Leaf := if format == "date" then .day else .moment
  match v, direction with
  | .time t, .encode | .timeRef (some t), .encode => return .string (leaf.encodeTime t)
  | .time t, .decode | .timeRef (some t), .decode => return .time t
  | .string s, .decode => settleLeaf p (leaf.decode s)
  | .string s, .encode => do
    let _ ← settleLeaf p (leaf.decode s)
    return v
  | v, _ => unfit p "time.Time or string" (if format == "date" then "Date(date)" else "Date") v

def convertBytes (direction : Direction) (v : Value) (p : Path) : Convert Value :=
  match v, direction with
  | .bytes bs, .encode => return .string (Bytes.Base64.encode bs)
  | .bytes _, .decode | .string _, .encode => return v
  | .string s, .decode => settleLeaf p (Leaf.base64.decode s)
  | v, _ => unfit p "[]byte or string" "Binary" v

def convertible? : Value → Option (List Value)
  | .seq _ items => some items
  | .namedBytes _ bs => some (bs.map fun b => .int "uint8" b.toNat)
  | _ => none

/-- The first shape that a value fits in rich or wire form. -/
def firstFit? (g : Graph) (v : Value) : List Shape → Except Fault (Option Shape)
  | [] => return none
  | s :: rest => do
    let (weak, g') ← (Graph.weak s).run g
    if ← Conformance.conforms g' weak v then return some s else firstFit? g v rest

/-- Converts a value as a shape directs. A handle that is met again at the same place converts
nothing more. -/
def convert (g : Graph) (direction : Direction) :
    Nat → Conformance.Opened → Shape → Value → Path → Convert Value
  | 0, _, _, _, _ => throw .exhausted
  | budget + 1, opened, s, v, p =>
    match s with
    | .handle id =>
      if opened.contains (id, p.pointer) then return v
      else
        match g.target? id with
        | none => return v
        | some target => convert g direction budget ((id, p.pointer) :: opened) target v p
    | .dateTime _ format => convertTime direction format v p
    | .binary => convertBytes direction v p
    | .array _ items =>
      match convertible? v with
      | none => return v
      | some vs => do
        let converted ← vs.zipIdx.mapM fun (v, i) => convert g direction budget opened items v (p.index i)
        return .seq .values converted
    | .object _ props extra? =>
      match v.entries? with
      | none => return v
      | some entries => do
        let converted ← entries.mapM fun (key, v) => do
          match ((Shape.property? props key).map (·.shape)).or extra? with
          | none => return (key, v)
          | some s => return (key, ← convert g direction budget opened s v (p.field key))
        return .map .values converted
    | .union _ _ members => do
      match ← firstFit? g v members with
      | none => return v
      | some m => convert g direction budget opened m v p
    | .intersection _ members => members.foldlM (fun v m => convert g direction budget opened m v p) v
    | _ => return v

/-- Converts a value; issues of the leaves are an error. -/
def run (g : Graph) (direction : Direction) (s : Shape) (v : Value) :
    Except Fault (Except (List Issue) Value) := do
  let (converted, issues) ← (convert g direction (Conformance.checkBudget g s v) [] s v .root).run []
  return if issues.isEmpty then .ok converted else .error issues

def encode (g : Graph) (s : Shape) (v : Value) : Except Fault (Except (List Issue) Value) :=
  run g .encode s v

def decode (g : Graph) (s : Shape) (v : Value) : Except Fault (Except (List Issue) Value) :=
  run g .decode s v

end JsonShape.Wire
