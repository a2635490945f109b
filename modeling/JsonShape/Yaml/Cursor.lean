import JsonShape.Text.Blank

/-! A place in the text of a stream, and the classes of characters that matter there. The end of the
text reads as the character zero, which no text may contain. -/
namespace JsonShape.Yaml

/-- Counts of characters before, of line ends before, and of characters since the last line end. -/
structure Mark where
  index : Nat
  line : Nat
  column : Nat
  deriving DecidableEq

/-- The text that is left, and where it starts. -/
structure Cursor where
  rest : List Char
  mark : Mark

def isBlankChar (c : Char) : Bool := c == ' ' || c == '\t'

def isBreak (c : Char) : Bool :=
  c == '\n' || c == '\r' || c.toNat == 0x85 || c.toNat == 0x2028 || c.toNat == 0x2029

def isEnd (c : Char) : Bool := c.toNat == 0

def isBreakOrEnd (c : Char) : Bool := isBreak c || isEnd c

def isGap (c : Char) : Bool := isBlankChar c || isBreakOrEnd c

def isWordChar (c : Char) : Bool :=
  Text.isDigit c || Text.isLower c || Text.isUpper c || c == '_' || c == '-'

def isAllowed (c : Char) : Bool :=
  let n := c.toNat
  n == 9 || n == 10 || n == 13 || (0x20 ≤ n && n ≤ 0x7E) || n == 0x85 ||
  (0xA0 ≤ n && n ≤ 0xFFFD) || n ≥ 0x10000

namespace Cursor

def ofText (cs : List Char) : Cursor := ⟨cs, ⟨0, 0, 0⟩⟩

def peek (c : Cursor) (distance : Nat) : Char := c.rest.getD distance (Char.ofNat 0)

def head (c : Cursor) : Char := c.peek 0

def skip (c : Cursor) : Cursor :=
  ⟨c.rest.drop 1, { c.mark with index := c.mark.index + 1, column := c.mark.column + 1 }⟩

def skipMany (c : Cursor) : Nat → Cursor
  | 0 => c
  | n + 1 => c.skip.skipMany n

def skipBreak (c : Cursor) : Cursor :=
  let width := if c.peek 0 == '\r' && c.peek 1 == '\n' then 2 else 1
  ⟨c.rest.drop width, ⟨c.mark.index + width, c.mark.line + 1, 0⟩⟩

def breakText (c : Cursor) : List Char :=
  if !isBreak c.head then []
  else if c.head.toNat == 0x2028 || c.head.toNat == 0x2029 then [c.head] else ['\n']

def readBreak (c : Cursor) : List Char × Cursor :=
  if isBreak c.head then (c.breakText, c.skipBreak) else ([], c)

def skipWhile (c : Cursor) (test : Char → Bool) : Cursor := c.skipMany (c.rest.takeWhile test).length

def takeWhile (c : Cursor) (test : Char → Bool) : List Char × Cursor :=
  (c.rest.takeWhile test, c.skipWhile test)

def isIndicator (c : Cursor) (mark : Char) : Bool :=
  c.mark.column == 0 && c.peek 0 == mark && c.peek 1 == mark && c.peek 2 == mark && isGap (c.peek 3)

def isDocumentIndicator (c : Cursor) : Bool := c.isIndicator '-' || c.isIndicator '.'

/-- Goes on past spaces and line ends to the next comment, if nothing else is before it. The budget
is the length of the text. -/
def toComment? : Nat → Cursor → Option Cursor
  | 0, _ => none
  | budget + 1, c =>
    if c.head == '#' then some c
    else if isBreak c.head then toComment? budget c.skipBreak
    else if isBlankChar c.head then toComment? budget c.skip
    else none

def skipComments : Nat → Cursor → Cursor
  | 0, c => c
  | budget + 1, c =>
    let c := c.skipWhile fun d => !isBreakOrEnd d
    match toComment? c.rest.length c with
    | some next => skipComments budget next
    | none => c

end Cursor

end JsonShape.Yaml
