import JsonShape.Shape.Build
import JsonShape.Shape.Reach

/-! Projections: a shape with its leaves replaced. The strict projection is what values look like on
the wire; the weak one accepts both the rich and the wire form. -/
namespace JsonShape.Graph
open Shape

abbrev Build := StateT Graph (Except Fault)

def draw {α : Type} (f : Fresh α) : Build α := fun g => do
  let (a, next) ← f g.next
  .ok (a, { g with next := next })

def declareHandle (name ref : String) : Build Nat := modifyGet (·.declare name ref)

def bindHandle (id : Nat) (target : Shape) : Build Unit := do
  let g ← get
  if (g.target? id).isSome then throw (.boundTwice (g.nameOf id))
  set (g.bind id target)

abbrev Rebuild := StateT (List (Nat × Nat)) Build

def rebuildProperties (rebuild : Shape → Rebuild Shape) (props : List (Property Shape)) :
    Rebuild (List (Property Shape)) :=
  props.mapM fun p => do return { p with shape := ← rebuild p.shape }

/-- Rebuilds a handle once; after that its new handle takes its place. -/
def rebuildHandle (rebuild : Shape → Rebuild Shape) (id : Nat) : Rebuild Shape := do
  match (← get).find? (·.1 == id) with
  | some (_, fresh) => return .handle fresh
  | none =>
    let g ← getThe Graph
    let fresh ← declareHandle (g.nameOf id) ((g.handles[id]?.map (·.ref)).getD "")
    modify ((id, fresh) :: ·)
    if let some target := g.target? id then
      let target ← rebuild target
      modifyThe Graph (·.bind fresh target)
    return .handle fresh

def rebuild (leaf : Shape → Fresh Shape) : Nat → Shape → Rebuild Shape
  | 0, _ => throw .exhausted
  | budget + 1, s =>
    match s with
    | .array _ items => do
      let items ← rebuild leaf budget items
      draw (ofItems items)
    | .object _ props extra? => do
      let props ← rebuildProperties (rebuild leaf budget) props
      let extra? ← extra?.mapM (rebuild leaf budget)
      return .object (← draw Fresh.serial) props extra?
    | .union _ inclusive members => do
      let members ← members.mapM (rebuild leaf budget)
      draw (unionOf inclusive members)
    | .intersection _ members => do
      let members ← members.mapM (rebuild leaf budget)
      return .intersection (← draw Fresh.serial) members
    | .handle id => rebuildHandle (rebuild leaf budget) id
    | leafShape => draw (leaf leafShape)

/-- A shape with its leaves replaced; each handle is replaced by a new one. -/
def mapLeaves (leaf : Shape → Fresh Shape) (s : Shape) : Build Shape := do
  let g ← get
  let (mapped, _) ← (rebuild leaf (g.reachBudget s) s).run []
  return mapped

def strictLeaf (s : Shape) : Fresh Shape :=
  return match s with
    | .dateTime _ _ | .binary => .string
    | s => s

def weakLeaf (s : Shape) : Fresh Shape :=
  match s with
  | .dateTime _ _ | .binary => do return .union (← Fresh.serial) false [s, .string]
  | s => return s

/-- The shape of values on the wire: moments and bytes are strings. -/
def strict (s : Shape) : Build Shape := mapLeaves strictLeaf s

/-- The shape of values that may be on the wire or not: moments and bytes may be strings. -/
def weak (s : Shape) : Build Shape := mapLeaves weakLeaf s

end JsonShape.Graph
