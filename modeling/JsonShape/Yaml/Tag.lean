import JsonShape.Yaml.Scalar

/-! Anchors, tags and directives of a stream. -/
namespace JsonShape.Yaml

def readAnchor (c : Cursor) : Except String (String × Cursor) :=
  let (name, c) := c.takeWhile isWordChar
  let d := c.head
  let ends := isGap d || d == '?' || d == ':' || d == ',' || d == ']' || d == '\x7d' ||
      d == '%' || d == '@' ||
    d.toNat == 96
  if name.isEmpty || !ends then .error "did not find expected alphabetic or numeric character"
  else .ok (String.ofList name, c)

def octetCount (octet : Nat) : Nat :=
  if octet < 0x80 then 1
  else if octet < 0xC0 then 0
  else if octet < 0xE0 then 2
  else if octet < 0xF0 then 3
  else if octet < 0xF8 then 4
  else 0

def readOctet (c : Cursor) : Except String (Nat × Cursor) :=
  match c.head, Text.hexValue? (c.peek 1), Text.hexValue? (c.peek 2) with
  | '%', some a, some b => .ok (a * 16 + b, c.skipMany 3)
  | _, _, _ => .error "did not find URI escaped octet"

def readTrailing : Nat → Nat → Cursor → Except String (Nat × Cursor)
  | 0, n, c => .ok (n, c)
  | count + 1, n, c => do
    let (octet, c) ← readOctet c
    if octet < 0x80 || octet ≥ 0xC0 then .error "found an incorrect trailing UTF-8 octet"
    else readTrailing count (n * 64 + (octet - 0x80)) c

def readEscapedChar (c : Cursor) : Except String (Char × Cursor) := do
  let (octet, c) ← readOctet c
  let count := octetCount octet
  if count == 0 then .error "found an incorrect leading UTF-8 octet"
  else
    let lead := if count == 1 then octet else octet % Nat.pow 2 (7 - count)
    let (n, c) ← readTrailing (count - 1) lead c
    .ok (Char.ofNat n, c)

def isUriChar (c : Char) : Bool :=
  isWordChar c || ";/?:@&=+$,.!~*()[]%".toList.contains c || c.toNat == 39

def readUri : Nat → List Char → Cursor → Except String (List Char × Cursor)
  | 0, cs, c => .ok (cs, c)
  | budget + 1, cs, c => do
    if c.head == '%' then
      let (d, c) ← readEscapedChar c
      readUri budget (cs ++ [d]) c
    else if isUriChar c.head then readUri budget (cs ++ [c.head]) c.skip
    else .ok (cs, c)

def readNonemptyUri (c : Cursor) : Except String (List Char × Cursor) := do
  let (cs, after) ← readUri (c.rest.length + 1) [] c
  if cs.isEmpty then .error "did not find expected tag URI" else .ok (cs, after)

def readHandle (c : Cursor) : List Char × Cursor :=
  let (word, c) := c.skip.takeWhile isWordChar
  if c.head == '!' then ('!' :: word ++ ['!'], c.skip) else ('!' :: word, c)

def readTagParts (c : Cursor) : Except String ((List Char × List Char) × Cursor) := do
  if c.peek 1 == '<' then
    let (suffix, c) ← readNonemptyUri (c.skipMany 2)
    if c.head == '>' then .ok (([], suffix), c.skip) else .error "did not find the expected '>'"
  else
    let (handle, after) := readHandle c
    if handle.length > 1 && handle.getLast? == some '!' then
      let (suffix, c) ← readNonemptyUri after
      .ok ((handle, suffix), c)
    else
      let (more, c) ← readUri (after.rest.length + 1) [] after
      let suffix := handle.drop 1 ++ more
      if suffix.isEmpty then .ok (([], ['!']), c) else .ok ((['!'], suffix), c)

def readTag (c : Cursor) : Except String (TokenKind × Cursor) := do
  let ((handle, suffix), c) ← readTagParts c
  if isGap c.head then .ok (.tag (String.ofList handle) (String.ofList suffix), c)
  else .error "did not find expected whitespace or line break"

def readVersionNumber (c : Cursor) : Except String (Nat × Cursor) :=
  let (digits, c) := c.takeWhile Text.isDigit
  if digits.isEmpty then .error "did not find expected version number"
  else if digits.length > 2 then .error "found extremely long version number"
  else .ok (Text.natOfDigits digits, c)

def readVersion (c : Cursor) : Except String (TokenKind × Cursor) := do
  let (major, c) ← readVersionNumber (c.skipWhile isBlankChar)
  if c.head != '.' then .error "did not find expected digit or '.' character"
  else
    let (minor, c) ← readVersionNumber c.skip
    .ok (.version major minor, c)

def readTagDirective (c : Cursor) : Except String (TokenKind × Cursor) := do
  let c := c.skipWhile isBlankChar
  if c.head != '!' then .error "did not find expected '!'"
  else
    let (handle, c) := readHandle c
    if handle.length > 1 && handle.getLast? != some '!' then .error "did not find expected '!'"
    else if !isBlankChar c.head then .error "did not find expected whitespace"
    else
      let (expansion, c) ← readNonemptyUri (c.skipWhile isBlankChar)
      if isGap c.head then .ok (.tagDirective (String.ofList handle) (String.ofList expansion), c)
      else .error "did not find expected whitespace or line break"

def readDirective (c : Cursor) : Except String (TokenKind × Cursor) := do
  let (name, c) := c.takeWhile isWordChar
  if name.isEmpty then .error "could not find expected directive name"
  else if !isGap c.head then .error "found unexpected non-alphabetical character"
  else
    let (kind, c) ←
      if name == "YAML".toList then readVersion c
      else if name == "TAG".toList then readTagDirective c
      else .error "found unknown directive name"
    let c ← toLineEnd c
    .ok (kind, c)

end JsonShape.Yaml
