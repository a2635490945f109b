import JsonShape.Text.Blank

/-! Reference tokens of JSON pointers: a tilde is written as two characters and so is a
slash. -/
namespace JsonShape.Text.Pointer

def escapeChar (c : Char) : List Char :=
  if c == '~' then ['~', '0'] else if c == '/' then ['~', '1'] else [c]

def escape (token : String) : String := String.ofList (token.toList.flatMap escapeChar)

def unescape (token : String) : String := replace "~0" "~" (replace "~1" "/" token)

end JsonShape.Text.Pointer
