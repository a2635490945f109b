import JsonShape.Bundle.Glob
import JsonShape.Bundle.Name
import JsonShape.Declaration.Render
import JsonShape.Derivation.Cache
import JsonShape.Yaml.Document

/-! Bundles: the schemas in the files of a tree. References between files go by their ids. -/
namespace JsonShape

/-- A tree of files: texts by name, and directories that may be empty. -/
structure FileTree where
  files : List (String × String)
  directories : List String

namespace FileTree

def lineage : Nat → String → List String
  | 0, name => [name]
  | budget + 1, name => if name == "/" then [name] else name :: lineage budget (Bundle.Name.parent name)

/-- A tree with clean names, in which every place that holds another is a directory. -/
def ofLists (files : List (String × String)) (directories : List String) : FileTree :=
  let files := Entries.ofList (files.map fun (name, text) => (Bundle.Name.key name, text))
  let holders := files.flatMap fun (name, _) => lineage name.length (Bundle.Name.parent name)
  let given := directories.flatMap fun name => lineage name.length (Bundle.Name.key name)
  ⟨files, ("/" :: holders ++ given).eraseDups⟩

def isDirectory (t : FileTree) (key : String) : Bool := t.directories.contains key

def elements (t : FileTree) (key : String) : List String :=
  let names := t.files.map (·.1) ++ t.directories
  ((names.filter fun name => name != "/" && Bundle.Name.parent name == key).map Bundle.Name.base).eraseDups

/-- The names of all files at or below a place, or the key of a place that is not there. The budget
bounds the depth. -/
def filesBelow (t : FileTree) : Nat → String → Except String (List String)
  | 0, _ => .ok []
  | budget + 1, name =>
    let key := Bundle.Name.key name
    if t.isDirectory key then do
      let below ← (t.elements key).mapM fun element => t.filesBelow budget (Bundle.Name.join name element)
      .ok below.flatten
    else if (t.files.find? (·.1 == key)).isSome then .ok [name]
    else .error key

end FileTree

/-- Why there is no bundle, or no answer from it. -/
inductive BundleError where
  | invalidPattern (pattern : String)
  | missing (root key : String)
  | file (path : String) (error : LoadError)
  | noDocument (id : String)
  | underivable (id : String) (issues : List Issue)
  | canceled (id : String)
  | source (error : Declaration.RenderError)

def BundleError.message : BundleError → String
  | invalidPattern pattern => "bundle: invalid pattern " ++ Text.Quoted.quote pattern
  | missing root key => "bundle: walk " ++ root ++ ": open " ++ key ++ ": file does not exist"
  | file path error => "bundle: " ++ path ++ ": " ++ error.message
  | noDocument id => "bundle: no document with $id " ++ Text.Quoted.quote id
  | underivable id issues => "bundle: derive " ++ id ++ ": " ++ Issue.summary issues
  | canceled id => "bundle: derive " ++ id ++ ": " ++ Derivation.Refusal.canceled.message
  | source error => error.message

/-- The schemas of files with their paths, in the order of the paths. -/
structure Bundle where
  documents : List (String × Schema)

namespace Bundle

def isSchemaName (name : String) : Bool := [".json", ".yaml", ".yml"].contains (Name.extension name)

def parse (path text : String) : Except LoadError (List Schema) :=
  if Name.extension path == ".json" then (Schema.ofJson text).map ([·]) else Schema.allOfYaml text

def identify (path : String) (s : Schema) (index : Nat) : Schema :=
  if s.keywords.id != "" then s
  else s.withId (if index == 0 then path else path ++ ":" ++ toString index)

def readFile (t : FileTree) (root path : String) : Except BundleError (List (String × Schema)) :=
  let text := (Entries.get? t.files (Name.key (Name.join root path))).getD ""
  match parse path text with
  | .error e => .error (.file path e)
  | .ok schemas => .ok (schemas.zipIdx.map fun (s, i) => (path, identify path s i))

def load (t : FileTree) (root pattern : String) : Except BundleError Bundle := do
  if !Glob.isValid pattern then .error (.invalidPattern pattern)
  else
    match t.filesBelow (t.files.length + t.directories.length + 2) root with
    | .error key => .error (.missing root key)
    | .ok names =>
      let paths := (names.filter isSchemaName).map (Name.relative root)
      let wanted := (paths.filter (Glob.isMatch pattern)).mergeSort fun a b => decide (a ≤ b)
      let documents ← wanted.mapM (readFile t root)
      .ok ⟨documents.flatten⟩

def corpus (b : Bundle) : Corpus := (b.documents.map (·.2)).toArray

def table (b : Bundle) : Table := .ofDocuments b.corpus (List.range b.documents.length)

def ids (b : Bundle) : List String := b.documents.map (·.2.keywords.id)

def lookup? (b : Bundle) (id : String) : Option Nat :=
  (b.ids.zipIdx.reverse.find? (·.1 == id)).map (·.2)

def deriveDocument (b : Bundle) (cache : Derivation.Cache) (document : Nat) (options : Options) :
    Graph.Build (Derivation.Outcome × Derivation.Cache) := do
  let (outcome, _, cache) ← cache.derive b.corpus ⟨document, []⟩ b.table options
  return (outcome, cache)

def deriveFrom (b : Bundle) (options : Options) :
    List (String × Nat) → Derivation.Cache →
      Graph.Build (Except BundleError (List (String × Shape)) × Derivation.Cache)
  | [], cache => return (.ok [], cache)
  | (id, document) :: rest, cache => do
    let (outcome, cache) ← b.deriveDocument cache document options
    match outcome.result with
    | .error issues => return (.error (.underivable id issues), cache)
    | .ok shape =>
      let (more, cache) ← b.deriveFrom options rest cache
      return (more.map ((id, shape) :: ·), cache)

def deriveAll (b : Bundle) (cache : Derivation.Cache) (options : Options) :
    Graph.Build (Except BundleError (List (String × Shape)) × Derivation.Cache) := do
  let (result, cache) ← b.deriveFrom options b.ids.zipIdx cache
  return (result.map Entries.ofList, cache)

def canceled? (b : Bundle) : Option BundleError := b.ids.head?.map .canceled

def source (b : Bundle) (cache : Derivation.Cache) (package : String) (options : Options) :
    Graph.Build (Except BundleError (List String) × Derivation.Cache) := do
  let (result, cache) ← b.deriveAll cache options
  let g ← get
  let rendered := result.bind fun shapes =>
    (Declaration.render package (Declaration.ofShapes g shapes)).mapError .source
  return (rendered, cache)

end Bundle

end JsonShape
