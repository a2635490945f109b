import JsonShape.Text.Blank

/-! Strings of a document: what is escaped, and how a list or an object is put together. -/
namespace JsonShape.Json
open Text

/-- A character inside a written string. Angle brackets, the ampersand and the two separators of
lines and paragraphs are escaped too, so that the text is safe inside other text. -/
def escapeChar (c : Char) : List Char :=
  if c == '\"' then ['\\', '\"']
  else if c == '\\' then ['\\', '\\']
  else if c == '\n' then ['\\', 'n']
  else if c == '\r' then ['\\', 'r']
  else if c == '\t' then ['\\', 't']
  else if c.toNat < 0x20 || c == '<' || c == '>' || c == '&' || c.toNat == 0x2028 || c.toNat == 0x2029 then
    '\\' :: 'u' :: hex 4 c.toNat
  else [c]

def quote (s : String) : String :=
  String.ofList ('\"' :: s.toList.flatMap escapeChar ++ ['\"'])

def writeList (items : List String) : String := "[" ++ ",".intercalate items ++ "]"

def writeMembers (members : List (String × String)) : String :=
  "\x7b" ++ ",".intercalate (members.map fun (key, value) => quote key ++ ":" ++ value) ++ "\x7d"

def writeObject (members : List (String × String)) : String :=
  writeMembers (members.mergeSort fun a b => decide (quote a.1 ≤ quote b.1))

end JsonShape.Json
