/-! Lists of keyed entries in ascending order of their keys, each key at most once. -/
namespace JsonShape.Entries

variable {α : Type}

def insert (key : String) (a : α) : List (String × α) → List (String × α)
  | [] => [(key, a)]
  | (k, b) :: rest =>
    if key < k then (key, a) :: (k, b) :: rest
    else if key == k then (key, a) :: rest
    else (k, b) :: insert key a rest

def ofList (entries : List (String × α)) : List (String × α) :=
  entries.foldl (fun sorted (key, a) => insert key a sorted) []

def get? (entries : List (String × α)) (key : String) : Option α :=
  (entries.find? (·.1 == key)).map (·.2)

def union (first second : List (String × α)) : List (String × α) :=
  second.foldl (fun sorted (key, a) => insert key a sorted) first

end JsonShape.Entries
