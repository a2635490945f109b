import JsonShape.Shape.Text

/-! What can be reached from a shape through its parts and the targets of its handles. -/
namespace JsonShape.Graph
open Shape

/-- The parts of a shape in order; the part of a handle is its target. -/
def parts (g : Graph) : Shape → List Shape
  | .array _ items => [items]
  | .object _ props extra? => props.map (·.shape) ++ extra?.toList
  | .union _ _ members => members
  | .intersection _ members => members
  | .handle id => (g.target? id).toList
  | _ => []

/-- Visits shapes in turn, each before its parts, and each handle once. What was visited so far is
given newest first. Below a shape that is not to be entered nothing is visited. -/
def visit (g : Graph) (enters : Shape → Bool) : Nat → List Shape → Shape → List Shape
  | 0, visited, _ => visited
  | budget + 1, visited, s =>
    let again := match s with
      | .handle id => visited.any fun
        | .handle other => other == id
        | _ => false
      | _ => false
    if again then visited
    else if enters s then (g.parts s).foldl (fun visited part => g.visit enters budget visited part)
    (s :: visited)
    else s :: visited

/-- A budget that suffices: on the way down each handle is opened at most once. -/
def reachBudget (g : Graph) (s : Shape) : Nat := (g.handles.size + 1) * (g.size + s.size + 1) + 1

/-- The shapes reached from a shape, itself first, in the order of the visit. -/
def walk (g : Graph) (enters : Shape → Bool) (s : Shape) : List Shape :=
  (g.visit enters (g.reachBudget s) [] s).reverse

/-- The handles reached from a shape, in the order of discovery. -/
def handlesIn (g : Graph) (s : Shape) : List Nat :=
  (g.walk (fun _ => true) s).filterMap fun
    | .handle id => some id
    | _ => none

def shapeText (g : Graph) (s : Shape) : String := s.text g.nameOf

def format (g : Graph) (s : Shape) : String :=
  let declarations := (g.handlesIn s).map fun id =>
    "type " ++ g.nameOf id ++ " = " ++ ((g.target? id).map g.shapeText).getD "any" ++ "\n"
  String.join declarations ++ g.shapeText s

end JsonShape.Graph
