import JsonShape.Text.Pointer

/-! Paths: where in a value or a schema something was found. -/
namespace JsonShape

/-- A path as its tokens, which are escaped. -/
structure Path where
  tokens : List String
  deriving DecidableEq

namespace Path

def root : Path := ⟨[]⟩

def ofPointer (pointer : String) : Path := ⟨(Text.split '/' pointer).filter (· != "")⟩

/-- The path to a field; a field without a name is at the same path. -/
def field (p : Path) (name : String) : Path :=
  if name == "" then p else ⟨p.tokens ++ [Text.Pointer.escape name]⟩

def index (p : Path) (i : Int) : Path := ⟨p.tokens ++ [toString i]⟩

def pointer (p : Path) : String := "/" ++ "/".intercalate p.tokens

end Path

end JsonShape
