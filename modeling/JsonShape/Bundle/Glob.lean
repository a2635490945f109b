import JsonShape.Text.Blank

/-! Patterns of file names. A star stands for characters of one element, two stars that are an
element for any number of elements, brackets for one of some characters and braces for
alternatives. -/
namespace JsonShape.Bundle.Glob

def classEnd? : List Char → Option (List Char)
  | [] => none
  | ['\\'] => none
  | '\\' :: _ :: rest => classEnd? rest
  | c :: rest => if c == ']' then some rest else classEnd? rest

def dropNegation : List Char → Bool × List Char
  | c :: rest => if c == '!' || c == '^' then (true, rest) else (false, c :: rest)
  | [] => (false, [])

/-- Whether a pattern is one: classes are closed and not empty, braces are matched, and something
follows a backslash. The budget is the length of the pattern. -/
def isValidFrom : Nat → Nat → List Char → Bool
  | _, depth, [] => depth == 0
  | 0, _, _ => false
  | budget + 1, depth, c :: rest =>
    if c == '\\' then !rest.isEmpty && isValidFrom budget depth (rest.drop 1)
    else if c == '[' then
      let (_, body) := dropNegation rest
      if body.isEmpty || body.head? == some ']' then false
      else
        match classEnd? body with
        | some rest => isValidFrom budget depth rest
        | none => false
    else if c == '\x7b' then isValidFrom budget (depth + 1) rest
    else if c == '\x7d' then depth > 0 && isValidFrom budget (depth - 1) rest
    else isValidFrom budget depth rest

def isValid (pattern : String) : Bool := isValidFrom pattern.length 0 pattern.toList

def classChar : List Char → Option (Char × List Char)
  | '\\' :: c :: rest => some (c, rest)
  | ['\\'] => none
  | c :: rest => some (c, rest)
  | [] => none

def inClass (c : Char) : Nat → Option Char → List Char → Bool
  | 0, _, _ => false
  | _, _, [] => false
  | budget + 1, last?, d :: rest =>
    if d == ']' then false
    else
      match last?, d, rest with
      | some low, '-', e :: _ =>
        if e == ']' then c == '-'
        else
          match classChar rest with
          | some (high, rest) => (low ≤ c && c ≤ high) || inClass c budget none rest
          | none => false
      | _, _, _ =>
        match classChar (d :: rest) with
        | some (e, rest) => c == e || inClass c budget (some e) rest
        | none => false

def alternatives? : Nat → List Char → List Char → Option (List (List Char) × List Char)
  | _, _, [] => none
  | depth, text, '\\' :: c :: rest => alternatives? depth (text ++ ['\\', c]) rest
  | depth, text, c :: rest =>
    if c == '\x7b' then alternatives? (depth + 1) (text ++ [c]) rest
    else if c == '\x7d' then
      match depth with
      | 0 => some ([text], rest)
      | depth + 1 => alternatives? depth (text ++ [c]) rest
    else if c == ',' && depth == 0 then
      (alternatives? 0 [] rest).map fun (more, after) => (text :: more, after)
    else alternatives? depth (text ++ [c]) rest

def matchesEmpty : Nat → List Char → Bool
  | 0, pattern => pattern.isEmpty
  | budget + 1, pattern =>
    ["", "*", "**", "/**", "**/", "/**/"].any (·.toList == pattern) ||
      match pattern with
      | '\x7b' :: rest =>
        match alternatives? 0 [] rest with
        | some (parts, after) => parts.any fun part => matchesEmpty budget (part ++ after)
        | none => false
      | _ => false

def afterSlashes : List Char → List (List Char)
  | [] => []
  | c :: rest => if c == '/' then rest :: afterSlashes rest else afterSlashes rest

def afterStar : List Char → List (List Char)
  | [] => [[]]
  | c :: rest => (c :: rest) :: if c == '/' then [] else afterStar rest

/-- Whether a pattern matches a name. Two stars count as such only at the start of an element. The
budget is the length of both. -/
def matchesFrom : Nat → Bool → List Char → List Char → Bool
  | 0, _, pattern, name => pattern.isEmpty && name.isEmpty
  | budget + 1, _, pattern, [] => matchesEmpty budget pattern
  | budget + 1, atStart, pattern, c :: name =>
    match pattern with
    | [] => false
    | '*' :: '*' :: rest =>
      match atStart, rest with
      | true, [] => true
      | true, '/' :: rest =>
        ((c :: name) :: afterSlashes (c :: name)).any fun name => matchesFrom budget true rest name
      | _, rest => (afterStar (c :: name)).any fun name => matchesFrom budget false rest name
    | '*' :: rest => (afterStar (c :: name)).any fun name => matchesFrom budget false rest name
    | '?' :: rest => c != '/' && matchesFrom budget false rest name
    | '[' :: rest =>
      let (negated, body) := dropNegation rest
      match classEnd? body with
      | some after =>
        inClass c (body.length + 1) none body != negated && matchesFrom budget false after name
      | none => false
    | '\x7b' :: rest =>
      match alternatives? 0 [] rest with
      | some (parts, after) => parts.any fun part => matchesFrom budget true (part ++ after) (c :: name)
      | none => false
    | '\\' :: d :: rest => d == c && matchesFrom budget (d == '/') rest name
    | d :: rest => d == c && matchesFrom budget (d == '/') rest name

def isMatch (pattern name : String) : Bool :=
  matchesFrom (pattern.length + name.length + 1) true pattern.toList name.toList

end JsonShape.Bundle.Glob
