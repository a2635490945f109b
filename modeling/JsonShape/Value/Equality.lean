import JsonShape.Entries
import JsonShape.Fault
import JsonShape.Number.Rational
import JsonShape.Number.Shortest
import JsonShape.Value

/-! Equality of literal values. Numbers are compared by the rational they denote, lists and maps of
any values item by item, and everything else by type and content. Some types have no equality:
comparing two of their values is a fault. -/
namespace JsonShape.Value
open Number

/-- The rational a number denotes: an integer itself, a binary number through its shortest text, a
spelled number through its spelling. -/
def rational? : Value → Option Rat
  | decimal text => readRational? text
  | double x => readRational? (x.text .double)
  | single x => readRational? ((x.rewiden .double).text .double)
  | int _ n => some n
  | _ => none

/-- Equality of binary numbers: zeros of both signs are equal, and what is not a number equals
nothing. -/
def binaryEqual : Binary → Binary → Bool
  | .nan, _ => false
  | .finite _ 0 _, .finite _ 0 _ => true
  | a, b => a == b

mutual
/-- Equality by type and content. -/
def identical : Value → Value → Except Fault Bool
  | null, null => .ok true
  | bool a, bool b => .ok (a == b)
  | string a, string b | decimal a, decimal b => .ok (a == b)
  | namedString k a, namedString l b => .ok (k == l && a == b)
  | int k a, int l b => .ok (k == l && a == b)
  | single a, single b | double a, double b => .ok (binaryEqual a b)
  | time a, time b => .ok (a.identical b)
  | timeRef none, timeRef none => .ok true
  | ref none, ref none => .ok true
  | record k a, record l b => .ok (k == l && a == b)
  | bytes _, bytes _ => .error .incomparable
  | namedBytes k _, namedBytes l _ => if k == l then .error .incomparable else .ok false
  | map k _, map l _ => if k == l then .error .incomparable else .ok false
  | seq k as, seq l bs =>
    if k != l then .ok false
    else if !k.isComparable then .error .incomparable
    else if as.map type == bs.map type then identicalItems as bs else .ok false
  | _, _ => .ok false

def identicalItems : List Value → List Value → Except Fault Bool
  | a :: as, b :: bs => do
    if ← identical a b then identicalItems as bs else .ok false
  | _, _ => .ok true
end

mutual
def literalEqual (a b : Value) : Except Fault Bool :=
  match a.rational? with
  | some r => .ok (b.rational? == some r)
  | none =>
    match a, b with
    | map .values as, map .values bs => if as.length == bs.length then entriesEqual as bs else .ok false
    | map .values _, _ => .ok false
    | seq .values as, seq .values bs => if as.length == bs.length then itemsEqual as bs else .ok false
    | seq .values _, _ => .ok false
    | a, b => identical a b
termination_by structural a

def itemsEqual : List Value → List Value → Except Fault Bool
  | a :: as, b :: bs => do
    if ← literalEqual a b then itemsEqual as bs else .ok false
  | _, _ => .ok true
termination_by structural as => as

/-- Every entry of the first has an equal one with its key in the second. -/
def entriesEqual : List (String × Value) → List (String × Value) → Except Fault Bool
  | (key, a) :: as, bs =>
    match Entries.get? bs key with
    | some b => do
      if ← literalEqual a b then entriesEqual as bs else .ok false
    | none => .ok false
  | [], _ => .ok true
termination_by structural as => as
end

end JsonShape.Value
