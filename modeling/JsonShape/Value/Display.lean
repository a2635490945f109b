import JsonShape.Number.Shortest
import JsonShape.Value

/-! The text of values inside messages. -/
namespace JsonShape.Value
open Number

def spaced (texts : List String) : String := " ".intercalate texts

mutual
def display : Value → String
  | null | timeRef none | ref none => "<nil>"
  | bool b => if b then "true" else "false"
  | string s | namedString _ s | decimal s => s
  | int _ n => toString n
  | single x => x.text .single
  | double x => x.text .double
  | time t | timeRef (some t) => t.display
  | bytes bs | namedBytes _ bs => "[" ++ spaced (bs.map fun b => toString b.toNat) ++ "]"
  | record _ fields => "\x7b" ++ spaced (fields.map fun field => toString field.2) ++ "\x7d"
  | seq _ items => "[" ++ spaced (displayItems items) ++ "]"
  | map _ entries => "map[" ++ spaced (displayEntries entries) ++ "]"
  | ref (some v) => "&" ++ v.display

def displayItems : List Value → List String
  | [] => []
  | v :: rest => v.display :: displayItems rest

def displayEntries : List (String × Value) → List String
  | [] => []
  | (key, v) :: rest => (key ++ ":" ++ v.display) :: displayEntries rest
end

end JsonShape.Value
