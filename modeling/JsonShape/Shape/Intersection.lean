import JsonShape.Shape.Build

/-! Intersection of shapes: the shape of what both accept. Objects are merged property by property,
unions member by member. Where a recursion comes back to a pair of shapes that is being met, the
pair stays as it is. -/
namespace JsonShape.Shape

/-- The meet of two shapes, left for later. -/
def unmerged (a b : Shape) : Fresh Shape := do
  let members : Shape → List Shape
    | intersection _ ms => ms
    | s => [s]
  return .intersection (← Fresh.serial) (members a ++ members b)

def isRich : Shape → Bool
  | dateTime _ _ | binary => true
  | _ => false

/-- The meet of a literal and a shape that is neither composite nor a handle. A string literal gives
way to a richer form of string. -/
def meetLiteral (l : Shape) (v : Value) (other : Shape) : Except Fault Shape :=
  match other with
  | literal _ w => do return if ← v.literalEqual w then l else never
  | other =>
    if v.literalKind == other.kind && other.kind != .array && other.kind != .object then .ok l
    else if v.literalKind == .string && other.isRich then .ok other
    else .ok never

def meetPlain (a b : Shape) : Shape :=
  if a.kind == .string && b.isRich then b
  else if b.kind == .string && a.isRich then a
  else if a.kind != b.kind then never
  else
    match b with
    | number true => b
    | _ => a

/-- The meet of a property with what the other side says about it. -/
def meetProperty (meet : Shape → Shape → Fresh Shape) (p : Property Shape) (others : List (Property Shape))
    (otherExtra? : Option Shape) : Fresh (Property Shape) := do
  match property? others p.name with
  | some q => return ⟨p.name, ← meet p.shape q.shape, p.optional && q.optional, q.default?.or p.default?⟩
  | none =>
    match otherExtra? with
    | some extra => return { p with shape := ← meet p.shape extra }
    | none => return p

/-- The meets of all properties; `none` if a required property can have no value. -/
def meetProperties (meet : Property Shape → Fresh (Property Shape)) :
    List (Property Shape) → Fresh (Option (List (Property Shape)))
  | [] => return some []
  | p :: rest => do
    let q ← meet p
    if q.shape.kind == .never && !q.optional then return none
    match ← meetProperties meet rest with
    | some qs => return some (q :: qs)
    | none => return none

def meetExtra (meet : Shape → Shape → Fresh Shape) : Option Shape → Option Shape → Fresh (Option Shape)
  | some a, some b => do return some (← meet a b)
  | some a, none => return some a
  | none, extra? => return extra?

/-- The meet of two objects: the properties of both, required if either side requires them. -/
def meetObjects (meet : Shape → Shape → Fresh Shape) (ps : List (Property Shape)) (e : Option Shape)
    (qs : List (Property Shape)) (f : Option Shape) : Fresh Shape := do
  match ← meetProperties (meetProperty meet · qs f) ps with
  | none => return never
  | some left =>
    let others := qs.filter fun q => (property? ps q.name).isNone
    match ← meetProperties (meetProperty meet · [] e) others with
    | none => return never
    | some right => ofProperties (left ++ right) (← meetExtra meet e f)

def distribute (meet : Shape → Shape → Fresh Shape) (inclusive : Bool) (members : List Shape)
    (other : Shape) :
    Fresh Shape := do
  let parts ← members.mapM fun m => meet m other
  unionOf inclusive parts

/-- The meet of two shapes of which one at least is a handle. A handle that the other side does not
narrow stays. -/
def meetHandles (target? : Nat → Option Shape) (meet : Shape → Shape → Fresh Shape) (a b : Shape) :
    Fresh Shape := do
  let opened : Shape → Option Shape
    | handle id => target? id
    | s => some s
  match opened a, opened b with
  | some ta, some tb =>
    let r ← meet ta tb
    if a.kind == .named && r.same ta then return a
    else if b.kind == .named && r.same tb then return b
    else return r
  | _, _ => unmerged a b

/-- The meet of two shapes, where some pairs are being met already. -/
def meet (target? : Nat → Option Shape) : Nat → List (Shape × Shape) → Shape → Shape → Fresh Shape
  | 0, _, _, _ => throw .exhausted
  | budget + 1, active, a, b =>
    if a.same b then return a
    else
      match a, b with
      | any, b => return b
      | a, any => return a
      | never, _ | _, never => return never
      | handle _, _ | _, handle _ =>
        if active.any fun (x, y) => x.same a && y.same b then unmerged a b
        else meetHandles target? (meet target? budget ((a, b) :: active)) a b
      | union _ inclusive members, other | other, union _ inclusive members =>
        distribute (meet target? budget active) inclusive members other
      | intersection _ _, _ | _, intersection _ _ => unmerged a b
      | object _ ps e, object _ qs f => meetObjects (meet target? budget active) ps e qs f
      | array _ s, array _ t => do
        let items ← meet target? budget active s t
        if items.same s then return a else ofItems items
      | literal _ v, other => meetLiteral a v other
      | other, literal _ v => meetLiteral b v other
      | object _ _ _, _ | _, object _ _ _ | array _ _, _ | _, array _ _ => return never
      | _, _ => return meetPlain a b

/-- A budget that suffices: each pair of shapes is opened at most once on the way down, and between
two openings the shapes get smaller. -/
def meetBudget (g : Graph) (a b : Shape) : Nat :=
  let shapes := g.size + g.handles.size + a.size + b.size
  ((shapes + 1) * (shapes + 1) + 1) * (2 * shapes + 2)

def intersect (g : Graph) (a b : Shape) : Fresh Shape := meet g.target? (meetBudget g a b) [] a b

def intersectAll (g : Graph) (shapes : List Shape) : Fresh Shape := shapes.foldlM (intersect g) any

end JsonShape.Shape
