import JsonShape.Derivation.State
import JsonShape.Shape.Intersection

/-! The rules of derivation: which shape the keywords of a schema give, when the shapes of its
subschemas are known. -/
namespace JsonShape.Derivation

/-- Derives the schema at a location, or any if there is none, as seen through a table. -/
abbrev Recur := Option Location → Table → Path → Derive Result

/-- Where a schema stands: its location, the table it sees and the path to it. -/
structure Site where
  corpus : Corpus
  options : Options
  location : Location
  table : Table
  path : Path
  depth : Nat

def Site.child? (site : Site) (step : Step) (s? : Option Schema) : Option Location :=
  s?.map fun _ => site.location.child step

def intersect (a b : Shape) : Derive Shape := do
  let g := (← get).graph
  draw (a.intersect g b)

def intersectAll (shapes : List Shape) : Derive Shape := do
  let g := (← get).graph
  draw (Shape.intersectAll g shapes)

def each (derive : Recur) (site : Site) (step : Nat → Step) (path : Path) (list : List (Option Schema)) :
    Derive (List Shape × Option Nat) := do
  let results ← list.zipIdx.mapM fun (s?, i) => derive (site.child? (step i) s?) site.table (path.index i)
  return (results.map (·.1), results.foldl (fun low (_, l) => lower low l) none)

def constant (v : Value) : Derive Shape :=
  match v with
  | .null => return .null
  | v => draw (Shape.ofLiteral v)

def isBareOneOf (k : Keywords Schema) : Bool :=
  k.oneOf?.isSome && k.boolean?.isNone && k.ref == "" && k.type.isAbsent && k.const?.isNone &&
    k.enum?.isNone &&
    k.anyOf?.isNone && k.allOf?.isNone

def array (derive : Recur) (site : Site) (k : Keywords Schema) : Derive Result := do
  match k.items? with
  | none => return (← draw (Shape.ofItems .any), none)
  | some items =>
    let path := site.path.field "items"
    let location := site.location.child .items
    match if isBareOneOf items.keywords then items.keywords.oneOf? else none with
    | some alternatives =>
      let table := site.table.enter site.corpus location
      let results ← alternatives.zipIdx.mapM fun (s?, i) => do
        let (shape, low) ← derive (s?.map fun _ => location.child (.oneOf i)) table
            ((path.field "oneOf").index i)
        return (← draw (Shape.ofItems shape), low)
      return (← draw (Shape.unionOf false (results.map (·.1))),
        results.foldl (fun low (_, l) => lower low l) none)
    | none =>
      let (shape, low) ← derive (some location) site.table path
      return (← draw (Shape.ofItems shape), low)

def extra (derive : Recur) (site : Site) (k : Keywords Schema) : Derive (Option Shape × Option Nat) := do
  match k.additionalProperties? with
  | none => return (none, none)
  | some s =>
    match s.keywords.boolean? with
    | some true => return (some .any, none)
    | some false => return (none, none)
    | none =>
      let (shape, low) ← derive (some (site.location.child .additionalProperties)) site.table
        (site.path.field "additionalProperties")
      return (some shape, low)

/-- Follows references to the schema that is not one; `none` where they lead nowhere or around. -/
def aliasEnd? (corpus : Corpus) : Nat → List Location → Table → Location → Option (Keywords Schema)
  | 0, _, _, _ => none
  | budget + 1, seen, t, location => do
    let s ← corpus.get? location
    let k := s.keywords
    if k.ref == "" || k.boolean?.isSome then some k
    else if seen.contains location then none
    else
      let (target?, t) ← (t.enter corpus location).resolve corpus k.ref
      let target ← target?
      aliasEnd? corpus budget (location :: seen) t target

def leadsToContainer (site : Site) (location : Location) (k : Keywords Schema) : Bool :=
  k.ref != "" &&
    match aliasEnd? site.corpus (site.corpus.count + 1) [] site.table location with
    | some k => k.declaresType ["object", "array"]
    | none => false

def property (derive : Recur) (site : Site) (k : Keywords Schema) (name : String) (s? : Option Schema) :
    Derive (Property Shape × Option Nat) := do
  let location? := site.child? (.property name) s?
  let (shape, low) ← derive location? site.table ((site.path.field "properties").field name)
  let default? := s?.bind (·.keywords.default?)
  let leadsBack := (low.any (· ≤ site.depth)) && site.options.recursion == .optional &&
    match location?, s? with
    | some location, some s => leadsToContainer site location s.keywords
    | _, _ => false
  let optional := !(k.isRequired name) || leadsBack
  let present := site.options.mode == .response && default?.isSome
  return (⟨name, shape, optional && !present, default?⟩, low)

def combine (derive : Recur) (site : Site) (k : Keywords Schema) (result : Result) : Derive Result := do
  let (shape, low) := result
  let (shape, low) ← match k.allOf? with
    | none => pure (shape, low)
    | some list => do
      let (parts, l) ← each derive site .allOf (site.path.field "allOf") list
      pure (← intersect shape (← intersectAll parts), lower low l)
  match k.oneOf? with
  | none => return (shape, low)
  | some list =>
    let (parts, l) ← each derive site .oneOf (site.path.field "oneOf") list
    return (← intersect shape (← draw (Shape.unionOf false parts)), lower low l)

def withRequired (base : Shape) (props : List (Property Shape)) (extra? : Option Shape)
    (names : List String) : Derive Shape :=
  if names.isEmpty then return base
  else
    draw (Shape.ofProperties (props.map fun p =>
    { p with optional := p.optional && !names.contains p.name }) extra?)

/-- The variants that the branches of `anyOf` make of an object, or the branch and the name of a
property that it requires and the object does not declare. -/
def variants (base : Shape) (props : List (Property Shape)) (extra? : Option Shape) :
    List (Option Schema × Nat) → Derive (Except (Nat × String) (List Shape))
  | [] => return .ok []
  | (s?, i) :: rest => do
    let names := (s?.bind (·.keywords.required?)).getD []
    match names.find? fun name => (Shape.property? props name).isNone with
    | some name => return .error (i, name)
    | none =>
      let variant ← withRequired base props extra? names
      match ← variants base props extra? rest with
      | .ok more => return .ok (variant :: more)
      | .error undeclared => return .error undeclared

def object (derive : Recur) (site : Site) (k : Keywords Schema) : Derive Result := do
  let (extra?, low) ← extra derive site k
  match k.properties? with
  | none =>
    if k.anyOf?.isSome then
      malformed site.options (site.path.field "anyOf") "anyOf on an object without properties"
    else combine derive site k (← draw (Shape.ofProperties [] extra?), low)
  | some entries =>
    let results ← entries.mapM fun (name, s?) => property derive site k name s?
    let props := results.map (·.1)
    let low := results.foldl (fun low (_, l) => lower low l) low
    let base ← draw (Shape.ofProperties props extra?)
    match k.anyOf? with
    | none => combine derive site k (base, low)
    | some branches =>
      match ← variants base props extra? branches.zipIdx with
      | .error (i, name) =>
        malformed site.options ((site.path.field "anyOf").index i)
          ("anyOf branch requires undeclared property " ++ Text.Quoted.quote name)
      | .ok shapes => combine derive site k (← draw (Shape.unionOf true shapes), low)

def typed (derive : Recur) (site : Site) (k : Keywords Schema) (name : String) : Derive Result :=
  match name with
  | "string" =>
    if k.format == "date" || k.format == "date-time" then
      do return (← draw (Shape.ofFormat k.format), none)
    else if k.format == "binary" then return (.binary, none)
    else return (.string, none)
  | "null" => return (.null, none)
  | "boolean" => return (.boolean, none)
  | "integer" => return (.number true, none)
  | "number" => return (.number false, none)
  | "object" => object derive site k
  | "array" => array derive site k
  | _ => return (.any, none)

def refPath (key : String) : Path :=
  match Text.cut '#' key.toList with
  | (_, some ('/' :: rest)) => .ofPointer (String.ofList ('/' :: rest))
  | _ => .root

/-- The shape of a schema: the first of the keywords that is set decides. -/
def dispatch (derive : Recur) (site : Site) (k : Keywords Schema) : Derive Result := do
  if let some b := k.boolean? then return (if b then .any else .never, none)
  if k.ref != "" then
    match site.table.resolve site.corpus k.ref with
    | some (target?, table) => return ← derive target? table (refPath k.ref)
    | none =>
      unresolved site.options site.path k.ref site.table
      return (.any, none)
  if let some v := k.const? then return (← constant v, none)
  if let some values := k.enum? then
    let shapes ← values.mapM constant
    return (← draw (Shape.unionOf false shapes), none)
  match k.type with
  | .one name => typed derive site k name
  | .list names =>
    let results ← names.mapM (typed derive site k)
    return (← draw (Shape.unionOf false (results.map (·.1))),
      results.foldl (fun low (_, l) => lower low l) none)
  | .absent =>
    if let some list := k.anyOf? then
      let (shapes, low) ← each derive site .anyOf (site.path.field "anyOf") list
      return (← draw (Shape.unionOf true shapes), low)
    if let some list := k.allOf? then
      let (shapes, low) ← each derive site .allOf (site.path.field "allOf") list
      return (← intersectAll shapes, low)
    if let some list := k.oneOf? then
      let (shapes, low) ← each derive site .oneOf (site.path.field "oneOf") list
      return (← draw (Shape.unionOf false shapes), low)
    return (.any, none)

end JsonShape.Derivation
