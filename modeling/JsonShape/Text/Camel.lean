import JsonShape.Text.Blank

/-! Names in camel case. Letters and digits of ASCII are kept and all else separates words. -/
namespace JsonShape.Text.Camel

structure State where
  raise : Bool
  afterCapital : Bool
  written : List Char

def isJoint (c : Char) : Bool := c == '_' || c == '-' || c == '.' || c == ' '

def step (s : State) (c : Char) : State :=
  if isLower c then
    ⟨false, false, s.written ++ [if s.raise then Char.ofNat (c.toNat - 32) else c]⟩
  else if isUpper c then
    ⟨false, true, s.written ++ [if !s.raise && s.afterCapital then lowerChar c else c]⟩
  else if isDigit c then ⟨true, false, s.written ++ [c]⟩
  else ⟨isJoint c, false, s.written⟩

def ofText (s : String) : String :=
  String.ofList ((trimBlanks s.toList).foldl step ⟨true, false, []⟩).written

end JsonShape.Text.Camel
