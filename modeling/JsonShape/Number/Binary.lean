/-! Binary floating-point numbers with exact arithmetic: a finite number is a whole multiple of
a power of two, and rounding goes to the nearest such multiple, a tie to the even one. -/
namespace JsonShape.Number

/-- The widths of floating-point numbers: digits of the significand, and the least and the
greatest power of two it can be scaled by. -/
structure Width where
  precision : Nat
  least : Int
  greatest : Int

def Width.single : Width := ⟨24, -149, 104⟩
def Width.double : Width := ⟨53, -1074, 971⟩

/-- A finite number is `significand · 2 ^ exponent`. -/
inductive Binary where
  | nan
  | infinite (negative : Bool)
  | finite (negative : Bool) (significand : Nat) (exponent : Int)
  deriving DecidableEq

def scale (base : Nat) (exponent : Int) (numerator denominator : Nat) : Nat × Nat :=
  match exponent with
  | .ofNat n => (numerator * Nat.pow base n, denominator)
  | .negSucc n => (numerator, denominator * Nat.pow base (n + 1))

def roundDiv (numerator denominator : Nat) : Nat :=
  let quotient := numerator / denominator
  let twice := 2 * (numerator % denominator)
  if twice > denominator || (twice == denominator && quotient % 2 == 1) then quotient + 1 else quotient

/-- The floating-point number nearest to a fraction, or `none` when it is too large. -/
def Binary.ofFraction? (w : Width) (negative : Bool) (numerator denominator : Nat) : Option Binary :=
  if numerator == 0 then some (.finite negative 0 w.least)
  else
    let magnitude : Int := (numerator.log2 : Int) - denominator.log2
    let guess := max w.least (magnitude - w.precision)
    let (n, d) := scale 2 (-guess) numerator denominator
    let exponent := if n / d < Nat.pow 2 w.precision then guess else guess + 1
    let (n, d) := scale 2 (-exponent) numerator denominator
    let rounded := roundDiv n d
    let (significand, exponent) :=
      if rounded == Nat.pow 2 w.precision then
        (Nat.pow 2 (w.precision - 1), exponent + 1) else (rounded, exponent)
    if exponent > w.greatest then none else some (.finite negative significand exponent)

def Binary.rewiden (w : Width) : Binary → Binary
  | .finite negative significand exponent =>
    let (n, d) := scale 2 exponent significand 1
    (Binary.ofFraction? w negative n d).getD (.infinite negative)
  | b => b

end JsonShape.Number
