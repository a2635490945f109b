import JsonShape.Json.Tree
import JsonShape.Text.Blank

/-! Reading a document. The rules for numbers and strings are a parameter: the lenient ones take
every run of number characters and every character in a string, the strict ones only what the
format allows. -/
namespace JsonShape.Json
open Text

/-- What a reader admits. -/
structure Rules where
  number : List Char → Bool
  character : Char → Bool

def isSpace (c : Char) : Bool := c == ' ' || c == '\n' || c == '\t' || c == '\r'

def skipSpaces (cs : List Char) : List Char := cs.dropWhile isSpace

def isNumberChar (c : Char) : Bool :=
  isDigit c || c == '.' || c == 'e' || c == 'E' || c == '+' || c == '-'

def startsNumber (c : Char) : Bool := c == '-' || isDigit c

def dropDigits? (cs : List Char) : Option (List Char) :=
  match cs with
  | c :: _ => if isDigit c then some (cs.dropWhile isDigit) else none
  | [] => none

def isStrictNumber (cs : List Char) : Bool :=
  let unsigned := match cs with
    | '-' :: rest => rest
    | _ => cs
  let whole? := match unsigned with
    | '0' :: rest => some rest
    | _ => dropDigits? unsigned
  let fraction? := whole?.bind fun
    | '.' :: rest => dropDigits? rest
    | rest => some rest
  let exponent? := fraction?.bind fun
    | [] => some []
    | mark :: rest =>
      if mark == 'e' || mark == 'E' then
        match rest with
        | '+' :: digits => dropDigits? digits
        | '-' :: digits => dropDigits? digits
        | digits => dropDigits? digits
      else none
  exponent? == some []

def Rules.lenient : Rules := ⟨fun _ => true, fun _ => true⟩
def Rules.strict : Rules := ⟨isStrictNumber, fun c => c.toNat ≥ 0x20⟩

def fourHex? : List Char → Option (Nat × List Char)
  | a :: b :: c :: d :: rest => do
    let a ← hexValue? a
    let b ← hexValue? b
    let c ← hexValue? c
    let d ← hexValue? d
    some (((a * 16 + b) * 16 + c) * 16 + d, rest)
  | _ => none

def replacement : Char := Char.ofNat 0xFFFD

/-- The character of an escape by number, and what follows it. Two halves of a pair stand for one
character, a half alone for the replacement character. -/
def unicodeEscape? (cs : List Char) : Option (Char × List Char) := do
  let (n, rest) ← fourHex? cs
  if n < 0xD800 || n ≥ 0xE000 then some (Char.ofNat n, rest)
  else if n ≥ 0xDC00 then some (replacement, rest)
  else
    match rest with
    | '\\' :: 'u' :: more =>
      match fourHex? more with
      | some (low, after) =>
        if 0xDC00 ≤ low && low < 0xE000 then
          some (Char.ofNat (0x10000 + (n - 0xD800) * 0x400 + (low - 0xDC00)), after)
        else some (replacement, rest)
      | none => some (replacement, rest)
    | _ => some (replacement, rest)

def shortEscape? (c : Char) : Option Char :=
  if c == '\"' || c == '\\' || c == '/' then some c
  else if c == 'b' then some (Char.ofNat 8)
  else if c == 'f' then some (Char.ofNat 12)
  else if c == 'n' then some '\n'
  else if c == 'r' then some '\r'
  else if c == 't' then some '\t'
  else none

def readString? (rules : Rules) : Nat → List Char → Option (List Char × List Char)
  | 0, _ => none
  | _, [] => none
  | budget + 1, c :: rest =>
    if c == '\"' then some ([], rest)
    else if c == '\\' then
      match rest with
      | 'u' :: more => do
        let (d, rest) ← unicodeEscape? more
        let (ds, rest) ← readString? rules budget rest
        some (d :: ds, rest)
      | e :: more => do
        let d ← shortEscape? e
        let (ds, rest) ← readString? rules budget more
        some (d :: ds, rest)
      | [] => none
    else if rules.character c then do
      let (ds, rest) ← readString? rules budget rest
      some (c :: ds, rest)
    else none

def readItems? (value : List Char → Option (Tree × List Char)) :
    Nat → List Char → Option (List Tree × List Char)
  | 0, _ => none
  | budget + 1, cs => do
    let (item, rest) ← value cs
    match skipSpaces rest with
    | ',' :: more =>
      let (items, rest) ← readItems? value budget more
      some (item :: items, rest)
    | ']' :: more => some ([item], more)
    | _ => none

def readMembers? (rules : Rules) (value : List Char → Option (Tree × List Char)) :
    Nat → List Char → Option (List (String × String × Tree) × List Char)
  | 0, _ => none
  | budget + 1, cs => do
    match skipSpaces cs with
    | '\"' :: rest =>
      let (key, rest) ← readString? rules (rest.length + 1) rest
      match skipSpaces rest with
      | ':' :: rest =>
        let source := skipSpaces rest
        let (item, rest) ← value source
        let member := (String.ofList key, String.ofList (source.take (source.length - rest.length)), item)
        match skipSpaces rest with
        | ',' :: more =>
          let (members, rest) ← readMembers? rules value budget more
          some (member :: members, rest)
        | '\x7d' :: more => some ([member], more)
        | _ => none
      | _ => none
    | _ => none

/-- One value from the start of the text. The budget bounds the depth of nesting. -/
def readValue? (rules : Rules) : Nat → List Char → Option (Tree × List Char)
  | 0, _ => none
  | budget + 1, cs =>
    match skipSpaces cs with
    | [] => none
    | '\x7b' :: rest =>
      match skipSpaces rest with
      | '\x7d' :: more => some (.object [], more)
      | more => do
        let (members, rest) ← readMembers? rules (readValue? rules budget) (more.length + 1) more
        some (.object members, rest)
    | '[' :: rest =>
      match skipSpaces rest with
      | ']' :: more => some (.array [], more)
      | more => do
        let (items, rest) ← readItems? (readValue? rules budget) (more.length + 1) more
        some (.array items, rest)
    | '\"' :: rest => do
      let (s, rest) ← readString? rules (rest.length + 1) rest
      some (.string (String.ofList s), rest)
    | c :: rest =>
      if startsNumber c then
        let text := c :: rest.takeWhile isNumberChar
        if rules.number text then
          some (.number (String.ofList text), rest.dropWhile isNumberChar) else none
      else do
        match dropStart? "true".toList (c :: rest) with
        | some more => some (.bool true, more)
        | none =>
          match dropStart? "false".toList (c :: rest) with
          | some more => some (.bool false, more)
          | none => (dropStart? "null".toList (c :: rest)).map fun more => (.null, more)

def Tree.ofLeading? (rules : Rules) (text : String) : Option Tree :=
  (readValue? rules (text.length + 1) text.toList).map (·.1)

def Tree.ofText? (rules : Rules) (text : String) : Option Tree := do
  let (tree, rest) ← readValue? rules (text.length + 1) text.toList
  if (skipSpaces rest).isEmpty then some tree else none

def isValid (text : String) : Bool := (Tree.ofText? .strict text).isSome

end JsonShape.Json
