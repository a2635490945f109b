import JsonShape.Yaml.Tag

/-! The tokens of a stream. Where blocks start and end is read off the columns; that something is a
key is only known when the colon after it is found, and then its token is put in before it. -/
namespace JsonShape.Yaml

/-- What may turn out to be a key: the number of its first token, and whether it must. -/
structure Candidate where
  required : Bool
  number : Nat
  mark : Mark

structure Stream where
  cursor : Cursor
  tokens : Array Token := #[]
  flow : Nat := 0
  indent : Int := -1
  indents : List Int := []
  candidates : List (Option Candidate) := [none]
  keyAllowed : Bool := true
  ended : Bool := false

namespace Stream

def mark (s : Stream) : Mark := s.cursor.mark

def push (s : Stream) (kind : TokenKind) (start stop : Mark) : Stream :=
  { s with tokens := s.tokens.push ⟨kind, start, stop⟩ }

def insert (s : Stream) (number : Nat) (kind : TokenKind) (mark : Mark) : Stream :=
  { s with tokens := (s.tokens.toList.insertIdx number ⟨kind, mark, mark⟩).toArray }

def pushChars (s : Stream) (kind : TokenKind) (count : Nat) : Stream :=
  let after := s.cursor.skipMany count
  { s.push kind s.mark after.mark with cursor := after }

def dropCandidate (s : Stream) : Except String Stream :=
  match s.candidates with
  | some k :: outer =>
    if k.required then .error "could not find expected ':'" else .ok
      { s with candidates := none :: outer }
  | _ => .ok s

def saveCandidate (s : Stream) : Except String Stream := do
  if !s.keyAllowed then .ok s
  else
    let s ← s.dropCandidate
    let k : Candidate := ⟨s.flow == 0 && s.indent == s.mark.column, s.tokens.size, s.mark⟩
    .ok { s with candidates := some k :: s.candidates.drop 1 }

def isTimely (s : Stream) (k : Candidate) : Bool :=
  k.mark.line == s.mark.line && k.mark.index + 1024 ≥ s.mark.index

def candidate? (s : Stream) : Except String (Option Candidate) :=
  match s.candidates with
  | some k :: _ =>
    if s.isTimely k then .ok (some k)
    else if k.required then .error "could not find expected ':'"
    else .ok none
  | _ => .ok none

def roll (s : Stream) (column : Nat) (number? : Option Nat) (kind : TokenKind) (mark : Mark) : Stream :=
  if s.flow > 0 || s.indent ≥ column then s
  else
    let s := { s with indents := s.indent :: s.indents, indent := column }
    match number? with
    | some number => s.insert number kind mark
    | none => s.push kind mark mark

def unrollTo (column : Int) : List Int → Stream → Stream
  | [], s => s
  | outer :: rest, s =>
    if s.indent > column then
      unrollTo column rest { s.push .blockEnd s.mark s.mark with indent := outer, indents := rest }
    else s

def unroll (s : Stream) (column : Int) : Stream := if s.flow > 0 then s else unrollTo column s.indents s

def toToken : Nat → Stream → Stream
  | 0, s => s
  | budget + 1, s =>
    let c := if s.mark.column == 0 && s.cursor.head.toNat == 0xFEFF then s.cursor.skip else s.cursor
    let tabs := s.flow > 0 || !s.keyAllowed
    let c := c.skipWhile fun d => d == ' ' || (tabs && d == '\t')
    let c := if c.head == '#' then c.skipComments (c.rest.length + 1) else c
    if isBreak c.head then
      toToken budget { s with cursor := c.skipBreak, keyAllowed := s.keyAllowed || s.flow == 0 }
    else { s with cursor := c }

def fetchEnd (s : Stream) : Except String Stream := do
  let s ← (s.unroll (-1)).dropCandidate
  .ok { s.push .streamEnd s.mark s.mark with keyAllowed := false, ended := true }

def fetchDirective (s : Stream) : Except String Stream := do
  let s ← (s.unroll (-1)).dropCandidate
  let (kind, after) ← readDirective s.cursor.skip
  .ok { s.push kind s.mark after.mark with cursor := after, keyAllowed := false }

def fetchDocumentIndicator (s : Stream) (kind : TokenKind) : Except String Stream := do
  let s ← (s.unroll (-1)).dropCandidate
  .ok { s.pushChars kind 3 with keyAllowed := false }

def fetchFlowStart (s : Stream) (kind : TokenKind) : Except String Stream := do
  let s ← s.saveCandidate
  let s := s.pushChars kind 1
  .ok { s with candidates := none :: s.candidates, flow := s.flow + 1, keyAllowed := true }

def fetchFlowEnd (s : Stream) (kind : TokenKind) : Except String Stream := do
  let s ← s.dropCandidate
  let s := if s.flow > 0 then { s with flow := s.flow - 1, candidates := s.candidates.drop 1 } else s
  .ok { s.pushChars kind 1 with keyAllowed := false }

def fetchFlowEntry (s : Stream) : Except String Stream := do
  let s ← s.dropCandidate
  .ok { s.pushChars .flowEntry 1 with keyAllowed := true }

def fetchBlockEntry (s : Stream) : Except String Stream := do
  if s.flow == 0 && !s.keyAllowed then .error "block sequence entries are not allowed in this context"
  else
    let s ← (s.roll s.mark.column none .blockSequenceStart s.mark).dropCandidate
    .ok { s.pushChars .blockEntry 1 with keyAllowed := true }

def fetchKey (s : Stream) : Except String Stream := do
  if s.flow == 0 && !s.keyAllowed then .error "mapping keys are not allowed in this context"
  else
    let s ← (s.roll s.mark.column none .blockMappingStart s.mark).dropCandidate
    .ok { s.pushChars .key 1 with keyAllowed := s.flow == 0 }

def fetchValue (s : Stream) : Except String Stream := do
  match ← s.candidate? with
  | some k =>
    let s := s.insert k.number .key k.mark
    let s := s.roll k.mark.column (some k.number) .blockMappingStart k.mark
    let s := { s with candidates := none :: s.candidates.drop 1 }
    .ok { s.pushChars .value 1 with keyAllowed := false }
  | none =>
    if s.flow == 0 && !s.keyAllowed then .error "mapping values are not allowed in this context"
    else
      let s := s.roll s.mark.column none .blockMappingStart s.mark
      .ok { s.pushChars .value 1 with
        candidates := none :: s.candidates.drop 1, keyAllowed := s.flow == 0 }

def fetchWith (s : Stream) (read : Cursor → Except String (TokenKind × Cursor)) :
    Except String Stream := do
  let s ← s.saveCandidate
  let (kind, after) ← read s.cursor
  .ok { s.push kind s.mark after.mark with cursor := after, keyAllowed := false }

def fetchAnchor (s : Stream) (kind : String → TokenKind) : Except String Stream :=
  s.fetchWith fun c => do
    let (name, c) ← readAnchor c.skip
    .ok (kind name, c)

def fetchQuoted (s : Stream) (quote : Char) : Except String Stream :=
  s.fetchWith fun c => do
    let (text, c) ← readQuoted quote (c.rest.length + 1) [] c.skip
    .ok (.scalar .quoted (String.ofList text), c)

def fetchBlock (s : Stream) (literal : Bool) : Except String Stream := do
  let s ← s.dropCandidate
  let (text, after) ← readBlock literal s.indent s.cursor.skip
  .ok { s.push (.scalar .block
  (String.ofList text)) s.mark after.mark with cursor := after, keyAllowed := true }

def fetchPlain (s : Stream) : Except String Stream := do
  let s ← s.saveCandidate
  let (f, after) ← readPlain (s.flow > 0) (s.indent + 1) (s.cursor.rest.length + 1) {} s.cursor
  .ok { s.push (.scalar .plain
  (String.ofList f.text)) s.mark after.mark with cursor := after, keyAllowed := f.broken }

def isIndicatorChar (c : Char) : Bool :=
  "-?:,[]\x7b\x7d#&*!|>\"%@".toList.contains c || c.toNat == 39 || c.toNat == 96

def startsPlain (s : Stream) : Bool :=
  let c := s.cursor.head
  let next := s.cursor.peek 1
  !(isGap c || isIndicatorChar c) || (c == '-' && !isBlankChar next) ||
    (s.flow == 0 && (c == '?' || c == ':') && !isGap next)

def fetchHere (s : Stream) : Except String Stream :=
  let c := s.cursor.head
  let beforeGap := isGap (s.cursor.peek 1)
  if isEnd c then s.fetchEnd
  else if s.mark.column == 0 && c == '%' then s.fetchDirective
  else if s.cursor.isIndicator '-' then s.fetchDocumentIndicator .documentStart
  else if s.cursor.isIndicator '.' then s.fetchDocumentIndicator .documentEnd
  else if c == '[' then s.fetchFlowStart .flowSequenceStart
  else if c == '\x7b' then s.fetchFlowStart .flowMappingStart
  else if c == ']' then s.fetchFlowEnd .flowSequenceEnd
  else if c == '\x7d' then s.fetchFlowEnd .flowMappingEnd
  else if c == ',' then s.fetchFlowEntry
  else if c == '-' && beforeGap then s.fetchBlockEntry
  else if c == '?' && (s.flow > 0 || beforeGap) then s.fetchKey
  else if c == ':' && (s.flow > 0 || beforeGap) then s.fetchValue
  else if c == '*' then s.fetchAnchor .aliasName
  else if c == '&' then s.fetchAnchor .anchor
  else if c == '!' then s.fetchWith readTag
  else if c == '|' && s.flow == 0 then s.fetchBlock true
  else if c == '>' && s.flow == 0 then s.fetchBlock false
  else if c.toNat == 39 || c == '\"' then s.fetchQuoted c
  else if s.startsPlain then s.fetchPlain
  else .error "found character that cannot start any token"

def toLineEnd (s : Stream) : Stream :=
  let last? : Option TokenKind := s.tokens.back?.map (·.kind)
  match last? with
  | some .blockEntry | some .documentStart | some .documentEnd => s
  | _ =>
    let c := s.cursor.skipWhile isBlankChar
    if c.head == '#' then { s with cursor := c.skipWhile fun d => !isBreakOrEnd d } else s

def fetch (s : Stream) : Except String Stream := do
  let s := toToken (s.cursor.rest.length + 1) s
  let s ← (s.unroll s.mark.column).fetchHere
  .ok s.toLineEnd

def run : Nat → Stream → Stream × Option String
  | 0, s => (s, none)
  | budget + 1, s =>
    if s.ended then (s, none)
    else
      match s.fetch with
      | .ok s => run budget s
      | .error e => (s, some e)

def ofText (text : String) : Stream :=
  let cs := text.toList
  let cs := if cs.head?.any (·.toNat == 0xFEFF) then cs.drop 1 else cs
  let start : Stream := { cursor := .ofText cs }
  start.push .streamStart start.mark start.mark

end Stream

/-- The tokens of a text, and a failure that ends them. -/
structure Tokens where
  tokens : Array Token
  failure? : Option String
  undecided : List Nat

def Tokens.ofText (text : String) : Tokens :=
  if !text.toList.all isAllowed then ⟨#[], some "control characters are not allowed", []⟩
  else
    let (s, failure?) := Stream.run (text.length + 2) (Stream.ofText text)
    let undecided := s.candidates.filterMap fun k? => k?.bind fun k => if s.isTimely k then
        some k.number else none
    ⟨s.tokens, failure?, undecided⟩

def Tokens.isReadable (t : Tokens) (number : Nat) : Bool :=
  t.failure?.isNone || (number + 3 ≤ t.tokens.size && !t.undecided.contains number)

end JsonShape.Yaml
