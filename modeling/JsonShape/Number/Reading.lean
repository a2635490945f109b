import JsonShape.Text.Blank
import JsonShape.Number.Binary

/-! Numerals: reading whole numbers with an optional base, floating-point numbers, and exact
rationals from text. An underscore may stand between digits. -/
namespace JsonShape.Number
open Text

def digitValue? (c : Char) : Option Nat :=
  if isDigit c then some (c.toNat - 48)
  else if isLower c then some (c.toNat - 87)
  else if isUpper c then some (c.toNat - 55)
  else none

def takeSign : List Char → Bool × List Char
  | '+' :: cs => (false, cs)
  | '-' :: cs => (true, cs)
  | cs => (false, cs)

def baseMark? (c : Char) : Option Nat :=
  let c := lowerChar c
  if c == 'b' then some 2 else if c == 'o' then some 8 else if c == 'x' then some 16 else none

/-- What the character before was, as far as underscores are concerned. -/
inductive Previous where
  | start | digit | underscore | other
  deriving DecidableEq

def underscoresBetween (hexadecimal : Bool) : Previous → List Char → Bool
  | previous, [] => previous != .underscore
  | previous, c :: cs =>
    if isDigit c || (hexadecimal && (hexValue? c).isSome) then underscoresBetween hexadecimal .digit cs
    else if c == '_' then previous == .digit && underscoresBetween hexadecimal .underscore cs
    else previous != .underscore && underscoresBetween hexadecimal .other cs

def underscoresAllowed (cs : List Char) : Bool :=
  match (takeSign cs).2 with
  | '0' :: c :: rest =>
    match baseMark? c with
    | some base => underscoresBetween (base == 16) .digit rest
    | none => underscoresBetween false .start ('0' :: c :: rest)
  | rest => underscoresBetween false .start rest

def digitsValue? (base : Nat) (cs : List Char) : Option Nat :=
  if cs.isEmpty then none
  else cs.foldlM (fun n c => do
    let d ← digitValue? c
    if d < base then some (base * n + d) else none) 0

def readInteger? (text : String) : Option Int := do
  let cs := text.toList
  if !underscoresAllowed cs then none
  else
    let (negative, cs) := takeSign cs
    let cs := if cs.contains '_' then cs.filter (· != '_') else cs
    let n ←
      match cs with
      | '0' :: c :: rest =>
        match baseMark? c with
        | some base => digitsValue? base rest
        | none => digitsValue? 8 (c :: rest)
      | cs => digitsValue? 10 cs
    some (if negative then -n else n)

def fitsSigned64 (n : Int) : Bool := -Int.pow 2 63 ≤ n && n < Int.pow 2 63
def fitsUnsigned64 (n : Int) : Bool := 0 ≤ n && n < Int.pow 2 64

/-- A number `significand · base ^ exponent` as it was written. -/
structure Numeral where
  negative : Bool
  significand : Nat
  base : Nat
  exponent : Int

/-- Digits with at most one point among them: their value, how many there are, how many follow
the point, and the rest of the text. -/
structure Mantissa where
  value : Nat := 0
  count : Nat := 0
  fraction : Nat := 0
  pointed : Bool := false

def takeMantissa (base : Nat) : Mantissa → List Char → Mantissa × List Char
  | m, [] => (m, [])
  | m, c :: cs =>
    if c == '_' then takeMantissa base m cs
    else if c == '.' && !m.pointed then takeMantissa base { m with pointed := true } cs
    else
      match (digitValue? c).filter (· < base) with
      | some d =>
        takeMantissa base { m with
          value := base * m.value + d, count := m.count + 1,
          fraction := if m.pointed then m.fraction + 1 else m.fraction } cs
      | none => (m, c :: cs)

def readExponent? (cs : List Char) : Option Int := do
  let (negative, cs) := takeSign cs
  let digits := cs.filter (· != '_')
  let n ← digitsValue? 10 digits
  if (digits.all isDigit) then some (if negative then -n else n) else none

/-- A floating-point numeral: decimal, or hexadecimal with a power of two. -/
def readNumeral? (text : String) : Option Numeral := do
  let whole := text.toList
  if whole.contains '_' && !underscoresAllowed whole then none
  else
    let (negative, cs) := takeSign whole
    let (base, mark, cs) :=
      match cs with
      | '0' :: x :: c :: rest =>
        if lowerChar x == 'x' then (16, 'p', c :: rest) else (10, 'e', '0' :: x :: c :: rest)
      | cs => (10, 'e', cs)
    let (m, rest) := takeMantissa base {} cs
    if m.count == 0 then none
    else
      let scaled (exponent : Int) : Numeral :=
        if base == 16 then ⟨negative, m.value, 2, exponent - 4 * m.fraction⟩
        else ⟨negative, m.value, 10, exponent - m.fraction⟩
      match rest with
      | [] => if base == 16 then none else some (scaled 0)
      | c :: rest => if lowerChar c == mark then (readExponent? rest).map scaled else none

/-- How a floating-point text was read. -/
inductive FloatReading where
  | malformed
  | tooLarge
  | value (x : Binary)

/-- The floating-point number nearest to a numeral. Numerals far outside the range are decided by
their size alone. -/
def Numeral.round (w : Width) (x : Numeral) : FloatReading :=
  let size : Int := if x.base == 2 then x.significand.log2 / 3 + x.exponent / 3
    else (Nat.toDigits 10 x.significand).length + x.exponent
  if x.significand == 0 then .value (.finite x.negative 0 w.least)
  else if size > 2000 then .tooLarge
  else if size < -2000 then .value (.finite x.negative 0 w.least)
  else
    let (n, d) := scale x.base x.exponent x.significand 1
    match Binary.ofFraction? w x.negative n d with
    | some b => .value b
    | none => .tooLarge

def readSpecial? (text : String) : Option Binary :=
  let (negative, cs) := takeSign text.toList
  let word := String.ofList (cs.map lowerChar)
  if word == "inf" || word == "infinity" then some (.infinite negative)
  else if word == "nan" && text.toList.length == 3 then some .nan
  else none

def readFloat (w : Width) (text : String) : FloatReading :=
  match readSpecial? text with
  | some b => .value b
  | none =>
    match readNumeral? text with
    | some x => x.round w
    | none => .malformed

end JsonShape.Number
