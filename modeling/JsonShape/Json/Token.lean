import JsonShape.Json.Reader

/-! Tokens of a document, read without regard to its grammar: commas and colons are skipped like
spaces, and the end of the text may come anywhere. -/
namespace JsonShape.Json
open Text

inductive Token where
  | openObject
  | openArray
  | close
  | string (s : String)
  | scalar
  | broken
  deriving DecidableEq

def dropWord? (word : String) (cs : List Char) : Option (List Char) := dropStart? word.toList cs

def scan : Nat → List Char → List Token
  | 0, _ => []
  | _, [] => []
  | budget + 1, c :: rest =>
    if isSpace c || c == ',' || c == ':' then scan budget rest
    else if c == '\x7b' then .openObject :: scan budget rest
    else if c == '[' then .openArray :: scan budget rest
    else if c == '\x7d' || c == ']' then .close :: scan budget rest
    else if c == '\"' then
      match readString? .lenient (rest.length + 1) rest with
      | some (s, rest) => .string (String.ofList s) :: scan budget rest
      | none => [.broken]
    else if startsNumber c then .scalar :: scan budget (rest.dropWhile isNumberChar)
    else if c.toNat == 0 then []
    else
      let word? := (dropWord? "true" (c :: rest)).or
        ((dropWord? "false" (c :: rest)).or (dropWord? "null" (c :: rest)))
      match word? with
      | some rest => .scalar :: scan budget rest
      | none => [.broken]

def tokens (text : String) : List Token := scan text.length text.toList

end JsonShape.Json
