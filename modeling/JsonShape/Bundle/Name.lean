import JsonShape.Text.Blank

/-! Names of files: elements with slashes between them. -/
namespace JsonShape.Bundle.Name
open Text

def addElement (rooted : Bool) (elements : List String) (element : String) : List String :=
  if element == "" || element == "." then elements
  else if element == ".." then
    match elements.getLast? with
    | none => if rooted then [] else [".."]
    | some last => if last == ".." then elements ++ [".."] else elements.dropLast
  else elements ++ [element]

def isRooted (name : String) : Bool := name.toList.head? == some '/'

def clean (name : String) : String :=
  let rooted := isRooted name
  let path := "/".intercalate ((split '/' name).foldl (addElement rooted) [])
  if rooted then "/" ++ path else if path == "" then "." else path

def join (name element : String) : String :=
  if name == "" then clean element else clean (name ++ "/" ++ element)

def key (name : String) : String :=
  let cleaned := clean name
  if cleaned == "." || cleaned == ".." then "/" else cleaned

def base (name : String) : String := (split '/' name).getLast?.getD ""

def parent (name : String) : String :=
  let elements := (split '/' name).dropLast
  let path := "/".intercalate elements
  if path == "" then "/" else key path

def extension (name : String) : String :=
  let reversed := (base name).toList.reverse
  let after := reversed.takeWhile (· != '.')
  if after.length == reversed.length then "" else String.ofList ('.' :: after.reverse.map lowerChar)

def relative (root name : String) : String :=
  let base := clean root
  let name := clean name
  if base == name then "."
  else if base == "." then name
  else
    let start := if base == "/" then "/" else base ++ "/"
    match dropStart? start.toList name.toList with
    | some rest => String.ofList rest
    | none => name

end JsonShape.Bundle.Name
