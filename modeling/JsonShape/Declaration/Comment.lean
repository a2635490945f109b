import JsonShape.Text.Blank

/-! Comments before declarations. Lines that stand further in than the others are an example and are
set apart by empty lines; doubled quotes become curly ones; empty lines never follow each other. -/
namespace JsonShape.Declaration
open Text

def isIndented : List Char → Bool
  | c :: _ => c == ' ' || c == '\t'
  | [] => false

def isEmptyLine (line : List Char) : Bool := line.all isBlank

def sharedIndent : List Char → List Char → List Char
  | a :: as, b :: bs => if a == b && (a == ' ' || a == '\t') then a :: sharedIndent as bs else []
  | _, _ => []

def leadingBlanks (line : List Char) : List Char := line.takeWhile fun c => c == ' ' || c == '\t'

def unindent (lines : List (List Char)) : List (List Char) :=
  let full := lines.filter fun l => !isEmptyLine l
  let shared := match full with
    | [] => []
    | first :: rest => rest.foldl sharedIndent (leadingBlanks first)
  lines.map fun l => if isEmptyLine l then [] else l.drop shared.length

def curl : Nat → List Char → List Char
  | 0, cs => cs
  | _, [] => []
  | budget + 1, c :: rest =>
    let twice := rest.head? == some c
    if c == Char.ofNat 96 && twice then
      if (rest.drop 1).head? == some c then
        let fence := (c :: rest).takeWhile (· == c)
        fence ++ curl budget ((c :: rest).drop fence.length)
      else Char.ofNat 0x201C :: curl budget (rest.drop 1)
    else if c == Char.ofNat 39 && twice then Char.ofNat 0x201D :: curl budget (rest.drop 1)
    else c :: curl budget rest

def squeeze (lines : List (List Char)) : List (List Char) :=
  let trimmed := ((lines.dropWhile (·.isEmpty)).reverse.dropWhile (·.isEmpty)).reverse
  trimmed.foldr (fun line rest =>
    match line, rest with
    | [], [] :: _ => rest
    | _, _ => line :: rest) []

def setApart : List (List Char) → List (List Char)
  | [] => []
  | [line] => [line]
  | line :: next :: rest =>
    let tail := setApart (next :: rest)
    if line.isEmpty || next.isEmpty || isIndented line == isIndented next then line :: tail
    else line :: [] :: tail

def commentLines (comment : String) : List String :=
  let lines := squeeze (setApart (unindent (splitAt '\n' comment.toList)))
  lines.map fun line =>
    if line.isEmpty then "//"
    else if isIndented line then "//\t" ++ String.ofList (line.dropWhile fun c => c == ' ' || c == '\t')
    else "// " ++ String.ofList (curl line.length line)

end JsonShape.Declaration
