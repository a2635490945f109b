import JsonShape.Yaml.Token

/-! The text of scalars: plain, quoted, and in blocks. Line ends inside a text are folded. -/
namespace JsonShape.Yaml

/-- Text in the making: what is read, and the blanks and line ends since then. -/
structure Folding where
  text : List Char := []
  blanks : List Char := []
  first : List Char := []
  more : List Char := []
  broken : Bool := false

namespace Folding

def join (f : Folding) : Folding :=
  let between :=
    if !f.broken then f.blanks
    else if f.first == ['\n'] then (if f.more.isEmpty then [' '] else f.more)
    else f.first ++ f.more
  { text := f.text ++ between }

def addBlank (f : Folding) (c : Char) : Folding :=
  if f.broken then f else { f with blanks := f.blanks ++ [c] }

def addBreak (f : Folding) (cs : List Char) : Folding :=
  if f.broken then
    { f with more := f.more ++ cs } else { f with blanks := [], first := cs, broken := true }

end Folding

def readGap (refuses : Folding → Cursor → Bool) : Nat → Folding → Cursor → Except String (Folding × Cursor)
  | 0, f, c => .ok (f, c)
  | budget + 1, f, c =>
    if isBlankChar c.head then
      if refuses f c then .error "found a tab character that violates indentation"
      else readGap refuses budget (f.addBlank c.head) c.skip
    else if isBreak c.head then readGap refuses budget (f.addBreak c.breakText) c.skipBreak
    else .ok (f, c)

def endsPlain (inFlow : Bool) (c next : Char) : Bool :=
  (c == ':' && isGap next) ||
    (inFlow && (c == ',' || c == '?' || c == '[' || c == ']' || c == '\x7b' || c == '\x7d'))

def plainRun (inFlow : Bool) : List Char → List Char
  | [] => []
  | c :: rest =>
    if isGap c || endsPlain inFlow c (rest.headD (Char.ofNat 0)) then [] else c :: plainRun inFlow rest

def readPlain (inFlow : Bool) (indent : Int) : Nat → Folding → Cursor → Except String (Folding × Cursor)
  | 0, f, c => .ok (f, c)
  | budget + 1, f, c => do
    if c.isDocumentIndicator || c.head == '#' then .ok (f, c)
    else
      let run := plainRun inFlow c.rest
      let f := if run.isEmpty then f else { f.join with text := f.join.text ++ run }
      let c := c.skipMany run.length
      if !(isBlankChar c.head || isBreak c.head) then .ok (f, c)
      else
        let tabAbuse := fun (f : Folding) (c : Cursor) =>
          f.broken && decide ((c.mark.column : Int) < indent) && c.head == '\t'
        let (f, c) ← readGap tabAbuse (c.rest.length + 1) f c
        if !inFlow && decide ((c.mark.column : Int) < indent) then .ok (f, c)
        else readPlain inFlow indent budget f c

def shortEscape? (c : Char) : Option Char :=
  match c with
  | '0' => some (Char.ofNat 0)
  | 'a' => some (Char.ofNat 7)
  | 'b' => some (Char.ofNat 8)
  | 't' | '\t' => some '\t'
  | 'n' => some '\n'
  | 'v' => some (Char.ofNat 11)
  | 'f' => some (Char.ofNat 12)
  | 'r' => some '\r'
  | 'e' => some (Char.ofNat 27)
  | ' ' | '\"' | '\\' => some c
  | 'N' => some (Char.ofNat 0x85)
  | '_' => some (Char.ofNat 0xA0)
  | 'L' => some (Char.ofNat 0x2028)
  | 'P' => some (Char.ofNat 0x2029)
  | _ => if c.toNat == 39 then some c else none

def escapeWidth? (c : Char) : Option Nat :=
  if c == 'x' then some 2 else if c == 'u' then some 4 else if c == 'U' then some 8 else none

def hexNumber? (cs : List Char) : Option Nat :=
  cs.foldlM (fun n c => (Text.hexValue? c).map fun d => n * 16 + d) 0

def readEscape (c : Cursor) : Except String (Char × Cursor) :=
  match escapeWidth? c.head with
  | some width =>
    let digits := (c.rest.drop 1).take width
    match hexNumber? digits with
    | some n =>
      if digits.length < width then .error "did not find expected hexdecimal number"
      else if (0xD800 ≤ n && n < 0xE000) || n > 0x10FFFF then
      .error "found invalid Unicode character escape code"
      else .ok (Char.ofNat n, c.skipMany (width + 1))
    | none => .error "did not find expected hexdecimal number"
  | none =>
    match shortEscape? c.head with
    | some d => .ok (d, c.skip)
    | none => .error "found unknown escape character"

def readQuotedRun (quote : Char) : Nat → List Char → Cursor → Except String (List Char × Bool × Cursor)
  | 0, cs, c => .ok (cs, false, c)
  | budget + 1, cs, c => do
    if isGap c.head then .ok (cs, false, c)
    else if c.head == quote then
      if quote != '\"' && c.peek 1 == quote then readQuotedRun quote budget (cs ++ [quote]) (c.skipMany 2)
      else .ok (cs, false, c)
    else if c.head == '\\' && quote == '\"' then
      if isBreak (c.peek 1) then .ok (cs, true, c.skip.skipBreak)
      else
        let (d, c) ← readEscape c.skip
        readQuotedRun quote budget (cs ++ [d]) c
    else readQuotedRun quote budget (cs ++ [c.head]) c.skip

def readQuoted (quote : Char) : Nat → List Char → Cursor → Except String (List Char × Cursor)
  | 0, _, _ => .error "found unexpected end of stream"
  | budget + 1, text, c => do
    if c.isDocumentIndicator then .error "found unexpected document indicator"
    else if isEnd c.head then .error "found unexpected end of stream"
    else
      let (run, escaped, c) ← readQuotedRun quote (c.rest.length + 1) [] c
      if !escaped && c.head == quote then .ok (text ++ run, c.skip)
      else
        let f : Folding := { text := text ++ run, broken := escaped }
        let (f, c) ← readGap (fun _ _ => false) (c.rest.length + 1) f c
        readQuoted quote budget f.join.text c

/-- What happens to the line ends at the end of a block. -/
inductive Chomping where
  | strip | clip | keep
  deriving DecidableEq

def chomping? (c : Char) : Option Chomping :=
  if c == '+' then some .keep else if c == '-' then some .strip else none

def readIndentation (c : Cursor) : Except String (Nat × Cursor) :=
  if !Text.isDigit c.head then .ok (0, c)
  else if c.head == '0' then .error "found an indentation indicator equal to 0"
  else .ok (Text.natOfDigits [c.head], c.skip)

def readBlockHeader (c : Cursor) : Except String ((Chomping × Nat) × Cursor) := do
  match chomping? c.head with
  | some chomping =>
    let (indentation, c) ← readIndentation c.skip
    .ok ((chomping, indentation), c)
  | none =>
    let (indentation, c) ← readIndentation c
    match if indentation == 0 then none else chomping? c.head with
    | some chomping => .ok ((chomping, indentation), c.skip)
    | none => .ok ((.clip, indentation), c)

def toLineEnd (c : Cursor) : Except String Cursor :=
  let c := c.skipWhile isBlankChar
  let c := if c.head == '#' then c.skipWhile fun d => !isBreakOrEnd d else c
  if isBreak c.head then .ok c.skipBreak
  else if isEnd c.head then .ok c
  else .error "did not find expected comment or line break"

def readBlockBreaks (indent : Nat) :
    Nat → Nat → List Char → Cursor → Except String (Nat × List Char × Cursor)
  | 0, widest, breaks, c => .ok (widest, breaks, c)
  | budget + 1, widest, breaks, c =>
    let spaces := (c.rest.takeWhile (· == ' ')).length
    let c := c.skipMany (if indent == 0 then spaces else min spaces (indent - c.mark.column))
    let widest := max widest c.mark.column
    if (indent == 0 || c.mark.column < indent) && c.head == '\t' then
      .error "found a tab character where an indentation space is expected"
    else if isBreak c.head then readBlockBreaks indent budget widest (breaks ++ c.breakText) c.skipBreak
    else .ok (widest, breaks, c)

def readBlockLines (literal : Bool) (indent : Nat) :
    Nat → List Char → List Char → List Char → Bool → Cursor →
      Except String ((List Char × List Char × List Char) × Cursor)
  | 0, text, first, more, _, c => .ok ((text, first, more), c)
  | budget + 1, text, first, more, afterBlank, c => do
    if c.mark.column != indent || isEnd c.head then .ok ((text, first, more), c)
    else
      let blank := isBlankChar c.head
      let folds := !literal && !afterBlank && !blank && first == ['\n']
      let between := if folds then (if more.isEmpty then [' '] else []) else first
      let (line, c) := c.takeWhile fun d => !isBreakOrEnd d
      let (first, c) := c.readBreak
      let (_, breaks, c) ← readBlockBreaks indent (c.rest.length + 1) 0 [] c
      readBlockLines literal indent budget (text ++ between ++ more ++ line) first breaks blank c

def readBlock (literal : Bool) (parent : Int) (c : Cursor) : Except String (List Char × Cursor) := do
  let ((chomping, increment), c) ← readBlockHeader c
  let c ← toLineEnd c
  let given := if increment == 0 then 0 else (if parent ≥ 0 then parent.toNat else 0) + increment
  let (widest, breaks, c) ← readBlockBreaks given (c.rest.length + 1) 0 [] c
  let indent := if given != 0 then given else max (max widest (parent + 1).toNat) 1
  let ((text, first, more), c) ← readBlockLines literal indent (c.rest.length + 1) [] [] breaks false c
  .ok (text ++ (if chomping == .strip then [] else first) ++ (if chomping == .keep then more else []), c)

end JsonShape.Yaml
