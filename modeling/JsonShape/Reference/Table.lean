import JsonShape.Schema.Location

/-! Reference tables: the schemas that references can reach, later entries before earlier ones. -/
namespace JsonShape

/-- A schema that can be referred to: a resource by its id, or a definition by its name and the id
of the resource that declares it. -/
structure Entry where
  id : String
  name? : Option String
  node? : Option Location
  deriving DecidableEq

namespace Entry

def resource (id : String) (node : Location) : Entry := ⟨id, none, some node⟩

def isResource (e : Entry) : Bool := e.name?.isNone

def text (e : Entry) : String :=
  match e.name? with
  | some name => e.id ++ "#/$defs/" ++ Text.Pointer.escape name
  | none => if e.id == "" then "#" else e.id

end Entry

structure Table where
  entries : List Entry
  deriving DecidableEq

namespace Table

def empty : Table := ⟨[]⟩

def push (t : Table) (e : Entry) : Table := ⟨t.entries.filter (· != e) ++ [e]⟩

def append (t other : Table) : Table := other.entries.foldl push t

def innermost? (t : Table) (test : Entry → Bool) : Option Entry := t.entries.reverse.find? test

def resource? (t : Table) : Option Entry := t.innermost? (·.isResource)

def resourceById? (t : Table) (id : String) : Option Entry :=
  t.innermost? fun e => e.isResource && e.id == id

def definition? (t : Table) (id name : String) : Option Entry :=
  t.innermost? fun e => e.name? == some name && e.id == id

def anyDefinition? (t : Table) (name : String) : Option Entry :=
  t.innermost? fun e => e.name? == some name

def scope (t : Table) : String := (t.resource?.map (·.id)).getD ""

/-- Takes in what a schema declares: itself if it has an id, and then its definitions, which belong
to the innermost resource. -/
def enterSchema (t : Table) (k : Keywords Schema) (location : Location) (scope : String) : Table :=
  let own := k.id != ""
  let scope := if own then k.id else scope
  let t := if own then t.push (.resource k.id location) else t
  k.localDefs.foldl (fun t (step, name, s?) =>
  t.push ⟨scope, some name, s?.map fun _ => location.child step⟩) t

def enter (corpus : Corpus) (t : Table) (location : Location) : Table :=
  match corpus.get? location with
  | some s => t.enterSchema s.keywords location t.scope
  | none => t

/-- Takes in a document: itself, each schema in it that has an id, and their definitions. -/
def addDocument (corpus : Corpus) (t : Table) (document : Nat) : Table :=
  match corpus[document]? with
  | none => t
  | some s =>
    s.walk.foldl (fun t (steps, s) =>
      let k := s.keywords
      if steps.isEmpty || k.id != "" then
        (t.push (.resource k.id ⟨document, steps⟩)).enterSchema k ⟨document, steps⟩ k.id
      else t) t

def ofDocuments (corpus : Corpus) (documents : List Nat) : Table :=
  documents.foldl (addDocument corpus) empty

def promote (t : Table) (id : String) : Table :=
  match t.resourceById? id with
  | some r => t.push r
  | none => t

def pointedDefinition? (t : Table) (id : String) (fragment : List Char) : Option Entry := do
  let under (keyword : String) : Option Entry := do
    let name ← Text.dropStart? keyword.toList fragment
    if name.contains '/' then none else t.definition? id (Text.Pointer.unescape (String.ofList name))
  (under "/$defs/").or (under "/definitions/")

/-- The schema that a fragment names in a resource. -/
def fragment? (corpus : Corpus) (t : Table) (r : Entry) (fragment : List Char) :
    Option (Option Location) :=
  match fragment with
  | [] => some r.node?
  | '/' :: _ =>
    match t.pointedDefinition? r.id fragment with
    | some d => some d.node?
    | none => do
      let location ← r.node?
      let s ← corpus.get? location
      let steps ← s.lookup? (String.ofList fragment)
      some (some { location with steps := location.steps ++ steps })
  | name => (t.definition? r.id (String.ofList name)).map (·.node?)

/-- The schema that a reference leads to, and the table for it, in which the resource that holds it
is innermost. The reference is an id, a fragment of the innermost resource, or both with a hash sign
between them. -/
def resolve (corpus : Corpus) (t : Table) (key : String) : Option (Option Location × Table) :=
  let (base, fragment?) := Text.cut '#' key.toList
  let base := String.ofList base
  match fragment? with
  | none =>
    if base == "" then t.resource?.map fun r => (r.node?, t)
    else
      match t.resourceById? base with
      | some r => some (r.node?, t.push r)
      | none => (t.anyDefinition? base).map fun d => (d.node?, t.promote d.id)
  | some fragment => do
    let r ← if base == "" then t.resource? else t.resourceById? base
    let node? ← t.fragment? corpus r fragment
    some (node?, t.push r)

end Table

end JsonShape
