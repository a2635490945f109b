import JsonShape.Entries
import JsonShape.Schema
import JsonShape.Text.Pointer

/-! Places inside schemas. A step leads from a schema to one of its subschemas; a pointer is the
text of a list of steps. -/
namespace JsonShape

inductive Step where
  | property (name : String)
  | additionalProperties
  | items
  | defs (name : String)
  | definitions (name : String)
  | anyOf (index : Nat)
  | oneOf (index : Nat)
  | allOf (index : Nat)
  deriving DecidableEq

namespace Step

def tokens : Step → List String
  | property name => ["properties", Text.Pointer.escape name]
  | additionalProperties => ["additionalProperties"]
  | items => ["items"]
  | defs name => ["$defs", Text.Pointer.escape name]
  | definitions name => ["definitions", Text.Pointer.escape name]
  | anyOf index => ["anyOf", toString index]
  | oneOf index => ["oneOf", toString index]
  | allOf index => ["allOf", toString index]

def pointer (steps : List Step) : String :=
  String.join ((steps.flatMap tokens).map ("/" ++ ·))

def index? (token : String) : Option Nat :=
  let (negative, digits) := match token.toList with
    | '-' :: rest => (true, rest)
    | '+' :: rest => (false, rest)
    | rest => (false, rest)
  if digits.isEmpty || !digits.all Text.isDigit then none
  else
    let n := Text.natOfDigits digits
    if negative && n != 0 then none else some n

def ofArgument? (keyword argument : String) : Option Step :=
  if keyword == "properties" then some (property argument)
  else if keyword == "$defs" then some (defs argument)
  else if keyword == "definitions" then some (definitions argument)
  else if keyword == "anyOf" then (index? argument).map anyOf
  else if keyword == "oneOf" then (index? argument).map oneOf
  else if keyword == "allOf" then (index? argument).map allOf
  else none

def ofTokens? : List String → Option (List Step)
  | [] => some []
  | token :: rest =>
    let keyword := Text.Pointer.unescape token
    if keyword == "items" then (ofTokens? rest).map (items :: ·)
    else if keyword == "additionalProperties" then (ofTokens? rest).map (additionalProperties :: ·)
    else
      match rest with
      | [] => none
      | argument :: rest => do
        let step ← ofArgument? keyword (Text.Pointer.unescape argument)
        let steps ← ofTokens? rest
        some (step :: steps)

def ofPointer? (pointer : String) : Option (List Step) :=
  if pointer == "" || pointer == "/" then some []
  else
    match pointer.toList with
    | '/' :: rest => ofTokens? (Text.split '/' (String.ofList rest))
    | _ => none

end Step

namespace Schema

def child? (s : Schema) (step : Step) : Option Schema :=
  let k := s.keywords
  match step with
  | .property name => (k.properties?.bind (Entries.get? · name)).join
  | .additionalProperties => k.additionalProperties?
  | .items => k.items?
  | .defs name => (k.defs?.bind (Entries.get? · name)).join
  | .definitions name => (k.definitions?.bind (Entries.get? · name)).join
  | .anyOf index => (k.anyOf?.bind (·[index]?)).join
  | .oneOf index => (k.oneOf?.bind (·[index]?)).join
  | .allOf index => (k.allOf?.bind (·[index]?)).join

def at? : Schema → List Step → Option Schema
  | s, [] => some s
  | s, step :: steps => (s.child? step).bind (·.at? steps)

def lookup? (s : Schema) (pointer : String) : Option (List Step) := do
  let steps ← Step.ofPointer? pointer
  let _ ← s.at? steps
  some steps

def namedChildren (step : String → Step) (entries? : Option (List (String × Option Schema))) :
    List (Step × Schema) :=
  (entries?.getD []).filterMap fun (name, s?) => s?.map fun s => (step name, s)

def listedChildren (step : Nat → Step) (entries? : Option (List (Option Schema))) : List (Step × Schema) :=
  (entries?.getD []).zipIdx.filterMap fun (s?, index) => s?.map fun s => (step index, s)

def oneChild (step : Step) (s? : Option Schema) : List (Step × Schema) :=
  s?.toList.map fun s => (step, s)

def children (s : Schema) : List (Step × Schema) :=
  let k := s.keywords
  namedChildren .property k.properties? ++
    (oneChild .additionalProperties k.additionalProperties? ++
      (oneChild .items k.items? ++
        (namedChildren .defs k.defs? ++
          (namedChildren .definitions k.definitions? ++
            (listedChildren .anyOf k.anyOf? ++
              (listedChildren .oneOf k.oneOf? ++ listedChildren .allOf k.allOf?))))))

theorem sizeOf_lt_of_mem_namedChildren {step : String → Step}
    {entries? : Option (List (String × Option Schema))} {c : Step × Schema}
    (member : c ∈ namedChildren step entries?) : sizeOf c.2 < sizeOf entries? := by
  cases entries? with
  | none => simp [namedChildren] at member
  | some entries =>
    simp only [namedChildren, Option.getD_some, List.mem_filterMap, Option.map_eq_some_iff] at member
    obtain ⟨⟨name, s?⟩, inside, s, found, rfl⟩ := member
    have bound := List.sizeOf_lt_of_mem inside
    have eq : s? = some s := found
    subst eq
    simp only [Prod.mk.sizeOf_spec, Option.some.sizeOf_spec] at bound ⊢
    omega

theorem sizeOf_lt_of_mem_listedChildren {step : Nat → Step} {entries? : Option (List (Option Schema))}
    {c : Step × Schema} (member : c ∈ listedChildren step entries?) : sizeOf c.2 < sizeOf entries? := by
  cases entries? with
  | none => simp [listedChildren] at member
  | some entries =>
    simp only [listedChildren, Option.getD_some, List.mem_filterMap, Option.map_eq_some_iff] at member
    obtain ⟨⟨s?, index⟩, inside, s, found, rfl⟩ := member
    have bound := List.sizeOf_lt_of_mem (List.fst_mem_of_mem_zipIdx inside)
    have eq : s? = some s := found
    subst eq
    simp only [Option.some.sizeOf_spec] at bound ⊢
    omega

theorem sizeOf_lt_of_mem_oneChild {step : Step} {s? : Option Schema} {c : Step × Schema}
    (member : c ∈ oneChild step s?) : sizeOf c.2 < sizeOf s? := by
  cases s? with
  | none => simp [oneChild] at member
  | some s =>
    simp only [oneChild, Option.toList_some, List.map_cons, List.map_nil, List.mem_singleton] at member
    subst member
    simp

theorem sizeOf_lt_of_mem_children {s : Schema} {c : Step × Schema} (member : c ∈ s.children) :
    sizeOf c.2 < sizeOf s := by
  obtain ⟨k⟩ := s
  cases k
  simp only [children, keywords, List.mem_append] at member
  simp only [node.sizeOf_spec, Keywords.mk.sizeOf_spec]
  rcases member with member | member | member | member | member | member | member | member
  · have := sizeOf_lt_of_mem_namedChildren member; omega
  · have := sizeOf_lt_of_mem_oneChild member; omega
  · have := sizeOf_lt_of_mem_oneChild member; omega
  · have := sizeOf_lt_of_mem_namedChildren member; omega
  · have := sizeOf_lt_of_mem_namedChildren member; omega
  · have := sizeOf_lt_of_mem_listedChildren member; omega
  · have := sizeOf_lt_of_mem_listedChildren member; omega
  · have := sizeOf_lt_of_mem_listedChildren member; omega

def walkFrom (enters : List Step → Schema → Bool) (steps : List Step) (s : Schema) :
    List (List Step × Schema) :=
  (steps, s) ::
    if enters steps s then
      s.children.attach.flatMap fun c => walkFrom enters (steps ++ [c.1.1]) c.1.2
    else []
termination_by sizeOf s
decreasing_by exact sizeOf_lt_of_mem_children c.2

def walk (s : Schema) : List (List Step × Schema) := walkFrom (fun _ _ => true) [] s

def count (s : Schema) : Nat := s.walk.length

end Schema

namespace Keywords

variable {α : Type}

def localDefs (k : Keywords α) : List (Step × String × Option α) :=
  let older := (k.definitions?.getD []).map fun (name, s?) => (name, Step.definitions name, s?)
  let newer := (k.defs?.getD []).map fun (name, s?) => (name, Step.defs name, s?)
  (Entries.union older newer).map fun (name, step, s?) => (step, name, s?)

end Keywords

/-- A place in a list of documents: the number of the document and the steps inside it. -/
structure Location where
  document : Nat
  steps : List Step
  deriving DecidableEq

abbrev Corpus := Array Schema

def Corpus.get? (corpus : Corpus) (location : Location) : Option Schema :=
  corpus[location.document]?.bind (·.at? location.steps)

def Corpus.count (corpus : Corpus) : Nat := corpus.foldl (fun n s => n + s.count) 0

def Location.child (location : Location) (step : Step) : Location :=
  { location with steps := location.steps ++ [step] }

end JsonShape
