import JsonShape.Number.Reading

/-! Exact rationals from numerals: a fraction of whole numbers, or digits with an optional point,
base prefix and exponent. -/
namespace JsonShape.Number
open Text

/-- Where a run of digits ended, and whether its underscores were well placed. -/
structure DigitRun where
  value : Nat := 0
  count : Nat := 0
  fraction : Nat := 0
  previous : Previous := .other
  misplaced : Bool := false

def takeDigits (base : Nat) : Bool → Bool → DigitRun → List Char → DigitRun × List Char
  | _, _, run, [] => (run, [])
  | pointAllowed, pointed, run, c :: cs =>
    if c == '.' && pointAllowed then
      takeDigits base false true
        { run with misplaced := run.misplaced || run.previous == .underscore, previous := .other } cs
    else if c == '_' then
      takeDigits base pointAllowed pointed
        { run with misplaced := run.misplaced || run.previous != .digit, previous := .underscore } cs
    else
      match (digitValue? c).filter (· < base) with
      | some d =>
        takeDigits base pointAllowed pointed
          { run with
            value := base * run.value + d, count := run.count + 1, previous := .digit,
            fraction := if pointed then run.fraction + 1 else run.fraction } cs
      | none => (run, c :: cs)

/-- An unsigned numeral with an optional base prefix. Where a point is not allowed, a leading zero
means base eight. -/
structure Unsigned where
  base : Nat
  value : Nat
  fraction : Nat

def takeUnsigned? (pointAllowed : Bool) (cs : List Char) : Option (Unsigned × List Char) :=
  let finish (base : Nat) (octalZero : Bool) (result : DigitRun × List Char) :
      Option (Unsigned × List Char) :=
    let (run, rest) := result
    if run.misplaced || run.previous == .underscore then none
    else if run.count == 0 then (if octalZero then some (⟨10, 0, 0⟩, rest) else none)
    else some (⟨base, run.value, run.fraction⟩, rest)
  match cs with
  | '0' :: c :: rest =>
    match baseMark? c with
    | some base => finish base false (takeDigits base pointAllowed false { previous := .digit } rest)
    | none =>
      if pointAllowed then finish 10 false (takeDigits 10 true false {} ('0' :: c :: rest))
      else finish 8 true (takeDigits 8 false false { previous := .digit } (c :: rest))
  | cs => finish 10 false (takeDigits 10 pointAllowed false {} cs)

def takeExponent? : List Char → Option (Nat × Int × List Char)
  | [] => some (10, 0, [])
  | c :: cs =>
    let mark := lowerChar c
    if mark == 'e' || mark == 'p' then
      let (negative, cs) := takeSign cs
      let (run, rest) := takeDigits 10 false false {} cs
      let exponent : Int := if negative then -run.value else run.value
      if run.count == 0 || run.misplaced || run.previous == .underscore then none
      else if !fitsSigned64 exponent then none
      else some (if mark == 'e' then 10 else 2, exponent, rest)
    else some (10, 0, c :: cs)

/-- The greatest powers of five and of two that a numeral may carry. -/
def fiveLimit : Nat := 1000000
def twoLimit : Nat := 10000000

/-- The rational `numerator · 2 ^ twos · 5 ^ fives`. -/
def rationalOf (negative : Bool) (numerator : Nat) (twos fives : Int) : Rat :=
  let (n, d) := scale 5 fives numerator 1
  let (n, d) := scale 2 twos n d
  mkRat (if negative then -n else n) d

/-- The exact value of a numeral, or `none` when the text is not one or its exponent is out of
bounds. -/
def readRational? (text : String) : Option Rat := do
  let cs := text.toList
  match cut '/' cs with
  | (above, some below) =>
    let (negative, digits) := takeSign above
    let (n, rest) ← takeUnsigned? false digits
    let (d, rest') ← takeUnsigned? false below
    if !rest.isEmpty || !rest'.isEmpty || d.value == 0 then none
    else some (mkRat (if negative then -n.value else n.value) d.value)
  | (_, none) =>
    let (negative, digits) := takeSign cs
    let (m, rest) ← takeUnsigned? true digits
    let (exponentBase, exponent, rest) ← takeExponent? rest
    if !rest.isEmpty then none
    else if m.value == 0 then some 0
    else
      let fraction : Int := m.fraction
      let (twos, fives) : Int × Int :=
        if m.base == 10 then (-fraction, -fraction)
        else if m.base == 8 then (-(3 * fraction), 0)
        else if m.base == 16 then (-(4 * fraction), 0)
        else (-fraction, 0)
      let twos := twos + exponent
      let fives := if exponentBase == 10 then fives + exponent else fives
      if fives.natAbs > fiveLimit || twos.natAbs > twoLimit then none
      else some (rationalOf negative m.value twos fives)

end JsonShape.Number
