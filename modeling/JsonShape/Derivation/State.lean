import JsonShape.Derivation.Options
import JsonShape.Issue
import JsonShape.Reference.Fingerprint
import JsonShape.Shape.Projection
import JsonShape.Text.Camel

/-! The state of a derivation: the schemas whose shapes are being derived, the shapes that are
known, and what is to be reported. -/
namespace JsonShape.Derivation

/-- A schema seen through a table. -/
structure Key where
  node : Location
  fingerprint : Fingerprint
  deriving DecidableEq

/-- A schema whose shape is being derived. A reference that comes back to it gets its handle. -/
structure Frame where
  id : Nat
  depth : Nat
  key : Key
  table : Table
  title : String
  handle? : Option Nat

/-- A known shape, with the outermost frame it leads back to. -/
structure Memo where
  key : Key
  shape : Shape
  frame? : Option Nat

structure State where
  graph : Graph
  issues : List Issue := []
  warnings : List String := []
  reported : List String := []
  /-- The open frames, innermost first. -/
  stack : List Frame := []
  memo : List Memo := []
  names : List (String × Nat) := []
  nextId : Nat := 0
  stopped : Bool := false

/-- A step of a derivation. -/
abbrev Derive := StateT State (Except Fault)

/-- A shape with the depth of the outermost open frame it leads back to. -/
abbrev Result := Shape × Option Nat

def lower : Option Nat → Option Nat → Option Nat
  | some a, some b => some (min a b)
  | some a, none => some a
  | none, b => b

def onGraph {α : Type} (f : Graph.Build α) : Derive α := fun s => do
  let (a, graph) ← f s.graph
  .ok (a, { s with graph := graph })

def draw {α : Type} (f : Fresh α) : Derive α := onGraph (Graph.draw f)

/-- Adds an issue, unless one with the same code, path and hint is there. -/
def report (options : Options) (issue : Issue) : Derive Unit := modify fun s =>
  let mark := "\x00".intercalate [issue.code.name, issue.path, issue.hint]
  if s.reported.contains mark then s
  else
    { s with
      reported := mark :: s.reported
      issues := s.issues ++ [issue]
      stopped := s.stopped || options.failFast }

/-- Tells of a combinator that cannot be expressed; its shape is never. -/
def malformed (options : Options) (p : Path) (message : String) : Derive Result := do
  if options.strict then report options (.atPath p .unsupportedCombinator message [])
  else modify fun s => { s with warnings := s.warnings ++ [p.pointer ++ ": " ++ message] }
  return (.never, none)

def unresolved (options : Options) (p : Path) (key : String) (t : Table) : Derive Unit :=
  let issue := Issue.atPath (p.field "$ref") .unresolvedRef
      ("cannot resolve $ref " ++ Text.Quoted.quote key)
    [("ref", .string key), ("document", .string t.scope)]
  report options { issue with hint := key }

def idName (id : String) : String :=
  let (path, _) := Text.cut '#' id.toList
  let trimmed := (path.reverse.dropWhile (· == '/')).reverse
  let base := (Text.splitAt '/' trimmed).getLast?.getD []
  let stem := match base.reverse.dropWhile (· != '.') with
    | _ :: before => before.reverse
    | [] => base
  if stem == ['.'] then "" else String.ofList stem

/-- What a frame is called by: the name of a definition or in an id, from the innermost entry for
its schema, or else the title; and the reference the entry answers to. -/
def baseName (f : Frame) : String × String :=
  match f.table.innermost? fun e => e.node? == some f.key.node with
  | none => (f.title, "")
  | some e =>
    let base := match e.name? with
      | some name => name
      | none => if e.id == "" then "" else idName e.id
    (if base == "" then f.title else base, e.text)

/-- A name that no other handle of the derivation has been given from the same base. -/
def freshName (f : Frame) : Derive (String × String) := do
  let (base, ref) := baseName f
  let camel := Text.Camel.ofText base
  let name := if camel != "" then camel else if f.depth > 0 then "Node" else "Root"
  let count := ((Entries.get? (← get).names name).getD 0) + 1
  modify fun s => { s with names := Entries.insert name count s.names }
  return (if count > 1 then name ++ toString count else name, ref)

/-- The handle of an open frame; it gets one when it is first asked for. -/
def handleOf (f : Frame) : Derive Nat := do
  match f.handle? with
  | some id => return id
  | none =>
    let (name, ref) ← freshName f
    let id ← onGraph (Graph.declareHandle name ref)
    modify fun s => { s with
      stack := s.stack.map fun g => if g.id == f.id then { g with handle? := some id } else g }
    return id

def openFrame (key : Key) (table : Table) (title : String) : Derive Frame := modifyGet fun s =>
  let f : Frame := ⟨s.nextId, s.stack.length, key, table, title, none⟩
  (f, { s with stack := f :: s.stack, nextId := s.nextId + 1 })

/-- Closes the innermost frame with its shape, binds its handle if it has one, and remembers the
result. -/
def closeFrame (f : Frame) (result : Result) : Derive Result := do
  let (shape, low?) := result
  let handle? := (← get).stack.head?.bind (·.handle?)
  modify fun s => { s with stack := s.stack.drop 1 }
  if let some id := handle? then onGraph (Graph.bindHandle id shape)
  let shape := match handle? with
    | some id => .handle id
    | none => shape
  let low? := low?.filter (· < f.depth)
  let stack := (← get).stack
  let frame? := low?.bind fun low => (stack.find? (·.depth == low)).map (·.id)
  if low?.isSome && frame?.isNone then throw .outOfRange
  modify fun s => { s with memo := ⟨f.key, shape, frame?⟩ :: s.memo }
  return (shape, low?)

end JsonShape.Derivation
