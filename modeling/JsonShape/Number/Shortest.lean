import JsonShape.Number.Binary

/-! Shortest decimals: the fewest digits that read back as the same floating-point number, and
of those the nearest to it. -/
namespace JsonShape.Number

/-- The decimal `0.d₁d₂… · 10 ^ point`; zero has no digits. -/
structure Decimal where
  digits : List Char
  point : Int

/-- The reals that round to a floating-point number, all over one denominator. -/
structure Interval where
  low : Nat
  value : Nat
  high : Nat
  denominator : Nat
  closed : Bool

/-- The interval around `significand · 2 ^ exponent`. Below a power of two the neighbour is
nearer. -/
def Interval.around (w : Width) (significand : Nat) (exponent : Int) : Interval :=
  let below := if significand == Nat.pow 2 (w.precision - 1) && exponent > w.least then 1 else 2
  let (unit, denominator) := scale 2 exponent 1 4
  ⟨(4 * significand - below) * unit, 4 * significand * unit, (4 * significand + 2) * unit, denominator,
    significand % 2 == 0⟩

def Interval.holds (i : Interval) (numerator denominator : Nat) : Bool :=
  let n := numerator * i.denominator
  let low := i.low * denominator
  let high := i.high * denominator
  (low < n && n < high) || (i.closed && (n == low || n == high))

def decimalPoint (numerator denominator : Nat) : Int :=
  if numerator ≥ denominator then (Nat.toDigits 10 (numerator / denominator)).length
  else
    let zeros := (Nat.toDigits 10 (denominator / numerator)).length
    let (n, d) := scale 10 zeros numerator denominator
    if n ≥ d then 1 - (zeros : Int) else -(zeros : Int)

/-- The multiple of `10 ^ grid` inside the interval that is nearest to the value. -/
def Interval.nearest? (i : Interval) (grid : Int) : Option Nat :=
  let (n, d) := scale 10 (-grid) i.value i.denominator
  let lower := n / d
  let inside (k : Nat) : Bool :=
    let (kn, kd) := scale 10 grid k 1
    i.holds kn kd
  let rounded := roundDiv n d
  if inside rounded then some rounded
  else if inside lower then some lower
  else if inside (lower + 1) then some (lower + 1)
  else none

def Interval.digits (i : Interval) (point : Int) : Nat → Nat → Nat × Int
  | 0, count => (roundDiv (scale 10 (count - point) i.value i.denominator).1
      (scale 10 (count - point) i.value i.denominator).2, point - count)
  | tries + 1, count =>
    match i.nearest? (point - count) with
    | some k => (k, point - count)
    | none => i.digits point tries (count + 1)

def Decimal.shortest (w : Width) (significand : Nat) (exponent : Int) : Decimal :=
  if significand == 0 then ⟨[], 0⟩
  else
    let i := Interval.around w significand exponent
    let (k, grid) := i.digits (decimalPoint i.value i.denominator) 17 1
    let written := Nat.toDigits 10 k
    ⟨(written.reverse.dropWhile (· == '0')).reverse, grid + written.length⟩

def Decimal.positional (x : Decimal) : String :=
  let count : Int := x.digits.length
  let text :=
    if x.digits.isEmpty then ['0']
    else if x.point ≤ 0 then '0' :: '.' :: List.replicate (-x.point).toNat '0' ++ x.digits
    else if x.point ≥ count then x.digits ++ List.replicate (x.point - count).toNat '0'
    else x.digits.take x.point.toNat ++ '.' :: x.digits.drop x.point.toNat
  String.ofList text

def Decimal.scientific (x : Decimal) : String :=
  let exponent := if x.digits.isEmpty then 0 else x.point - 1
  let size := Nat.toDigits 10 exponent.natAbs
  let fraction := if x.digits.length ≤ 1 then [] else '.' :: x.digits.drop 1
  let leading := if x.digits.isEmpty then ['0'] else x.digits.take 1
  String.ofList (leading ++ fraction ++ ['e', if exponent < 0 then '-' else '+'] ++
    (if size.length < 2 then '0' :: size else size))

structure Layout where
  least : Int
  limit : Int

def Layout.general : Layout := ⟨-4, 6⟩

def Layout.document : Layout := ⟨-6, 21⟩

def Layout.write (rule : Layout) (negative : Bool) (x : Decimal) : String :=
  let exponent := if x.digits.isEmpty then 0 else x.point - 1
  let body := if exponent < rule.least || exponent ≥ rule.limit then x.scientific else x.positional
  if negative then "-" ++ body else body

def Binary.text (w : Width) : Binary → String
  | .nan => "NaN"
  | .infinite false => "+Inf"
  | .infinite true => "-Inf"
  | .finite negative significand exponent =>
    Layout.general.write negative (Decimal.shortest w significand exponent)

def Binary.documentText? (w : Width) : Binary → Option String
  | .finite negative significand exponent =>
    some (Layout.document.write negative (Decimal.shortest w significand exponent))
  | _ => none

end JsonShape.Number
