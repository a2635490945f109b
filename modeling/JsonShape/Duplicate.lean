import JsonShape.Issue
import JsonShape.Json.Token

/-! Repeated keys of a document, found in the sequence of its tokens. -/
namespace JsonShape.Duplicate
open Json

/-- What to do about repeated keys: nothing, list them, or stop at the first. -/
inductive Strictness where
  | ignore | warn | error
  deriving DecidableEq

structure Finding where
  code : Code
  path : String
  key : String
  message : String

/-- An open container: an object with the keys read so far, the last of them and whether a key comes
next, or a list with the number of its next item. -/
inductive Container where
  | object (path : String) (keys : List String) (last : String) (expectsKey : Bool)
  | list (path : String) (next : Nat)

def place : List Container → String × List Container
  | [] => ("", [])
  | .list path next :: outer => (path ++ "/" ++ toString next, .list path (next + 1) :: outer)
  | .object path keys last _ :: outer =>
    (path ++ "/" ++ Text.Pointer.escape last, .object path keys last true :: outer)

structure Demand where
  strictness : Strictness
  limit? : Option Nat

/-- Findings with one more, unless there are enough. When the last that is wanted has come, a
remark says so, except where the search stops anyway. -/
def Demand.add (d : Demand) (found : List Finding) (f : Finding) : List Finding :=
  match d.limit? with
  | none => found ++ [f]
  | some limit =>
    if found.length ≥ limit then found
    else if found.length + 1 ≥ limit && (f.code != .duplicateKey || d.strictness != .error) then
      found ++ [f, ⟨.truncated, "/", "", "max issues reached"⟩]
    else found ++ [f]

def repeated (path key : String) : Finding :=
  ⟨.duplicateKey, if path == "" then "/" else path, key, "key '" ++ key ++ "' duplicated"⟩

def search (d : Demand) : List Container → List Finding → List Token → List Finding
  | _, found, [] => found
  | _, found, .broken :: _ => d.add found ⟨.parseError, "/", "", "invalid character or literal"⟩
  | containers, found, .openObject :: rest =>
    let (path, outer) := place containers
    search d (.object path [] "" true :: outer) found rest
  | containers, found, .openArray :: rest =>
    let (path, outer) := place containers
    search d (.list path 0 :: outer) found rest
  | containers, found, .close :: rest => search d (containers.drop 1) found rest
  | .object path keys _ true :: outer, found, .string key :: rest =>
    if keys.contains key then
      let found := d.add found (repeated path key)
      if d.strictness == .error then found
      else search d (.object path keys key false :: outer) found rest
    else search d (.object path (key :: keys) key false :: outer) found rest
  | containers, found, .string _ :: rest => search d (place containers).2 found rest
  | containers, found, .scalar :: rest => search d (place containers).2 found rest

/-- The repeated keys of a document; a negative limit means all of them. -/
def find (text : String) (strictness : Strictness) (limit : Int) : List Finding :=
  if strictness == .ignore then []
  else search ⟨strictness, if limit < 0 then none else some limit.toNat⟩ [] [] (tokens text)

def issues (text : String) (limit : Int) : List Issue :=
  (find text .warn limit).map fun f =>
    { path := f.path, code := f.code, message := f.message,
      params := if f.key == "" then [] else [("key", .string f.key)] }

end JsonShape.Duplicate
