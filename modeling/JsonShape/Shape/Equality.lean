import JsonShape.Shape
import JsonShape.Value.Equality

/-! Equality of shapes: identity, where serial numbers count, and structural equality, where they do
not. Handles are compared by identity in both. -/
namespace JsonShape

/-- The kind of shape that a literal value belongs to; for values that are not of a document it is
any. -/
def Value.literalKind : Value → Kind
  | null => .null
  | bool _ => .boolean
  | string _ => .string
  | decimal _ | int _ _ | single _ | double _ => .number
  | map .values _ => .object
  | seq .values _ => .array
  | _ => .any

/-- Literals are equal if they are of one kind and their values are equal. -/
def Value.matchesLiteral (v w : Value) : Except Fault Bool :=
  if v.literalKind == w.literalKind then v.literalEqual w else .ok false

namespace Value

mutual
def same : Value → Value → Bool
  | null, null => true
  | bool a, bool b => a == b
  | string a, string b => a == b
  | namedString k a, namedString l b => k == l && a == b
  | decimal a, decimal b => a == b
  | int k a, int l b => k == l && a == b
  | single a, single b => a == b
  | double a, double b => a == b
  | time a, time b => a == b
  | timeRef a, timeRef b => a == b
  | bytes a, bytes b => a == b
  | namedBytes k a, namedBytes l b => k == l && a == b
  | record k a, record l b => k == l && a == b
  | seq k as, seq l bs => k == l && sameItems as bs
  | map k as, map l bs => k == l && sameEntries as bs
  | ref none, ref none => true
  | ref (some a), ref (some b) => a.same b
  | _, _ => false

def sameItems : List Value → List Value → Bool
  | [], [] => true
  | a :: as, b :: bs => a.same b && sameItems as bs
  | _, _ => false

def sameEntries : List (String × Value) → List (String × Value) → Bool
  | [], [] => true
  | (j, a) :: as, (k, b) :: bs => j == k && a.same b && sameEntries as bs
  | _, _ => false
end

end Value

namespace Shape

def sameDefault : Option Value → Option Value → Bool
  | none, none => true
  | some a, some b => a.same b
  | _, _ => false

mutual
def same : Shape → Shape → Bool
  | any, any | never, never | null, null | boolean, boolean | string, string | binary, binary => true
  | number i, number j => i == j
  | dateTime m f, dateTime n g => m == n && f == g
  | literal m v, literal n w => m == n && v.same w
  | array m s, array n t => m == n && s.same t
  | object m ps e, object n qs f => m == n && sameProperties ps qs && sameOption e f
  | union m i ss, union n j ts => m == n && i == j && sameMembers ss ts
  | intersection m ss, intersection n ts => m == n && sameMembers ss ts
  | handle m, handle n => m == n
  | _, _ => false

def sameProperties : List (Property Shape) → List (Property Shape) → Bool
  | [], [] => true
  | ⟨name, s, optional, d⟩ :: ps, ⟨name', t, optional', d'⟩ :: qs =>
    name == name' && optional == optional' && sameDefault d d' && s.same t && sameProperties ps qs
  | _, _ => false

def sameOption : Option Shape → Option Shape → Bool
  | none, none => true
  | some s, some t => s.same t
  | _, _ => false

def sameMembers : List Shape → List Shape → Bool
  | [], [] => true
  | s :: ss, t :: ts => s.same t && sameMembers ss ts
  | _, _ => false
end

mutual
/-- Structural equality. The members of unions and intersections are compared as sets of the same
size, in one direction. -/
def equal (a b : Shape) : Except Fault Bool :=
  if a.same b then .ok true
  else
    match a, b with
    | dateTime _ f, dateTime _ g => .ok (f == g)
    | literal _ v, literal _ w => v.matchesLiteral w
    | array _ s, array _ t => s.equal t
    | object _ ps e, object _ qs f => do
      if ps.length == qs.length && e.isSome == f.isSome then
        if ← equalOption e f then equalProperties ps qs else .ok false
      else .ok false
    | union _ _ ss, union _ _ ts => if ss.length == ts.length then containedMembers ss ts else .ok false
    | intersection _ ss, intersection _ ts =>
      if ss.length == ts.length then containedMembers ss ts else .ok false
    | _, _ => .ok false
termination_by structural a

def equalOption : Option Shape → Option Shape → Except Fault Bool
  | some s, some t => s.equal t
  | _, _ => .ok true
termination_by structural e => e

def equalProperties : List (Property Shape) → List (Property Shape) → Except Fault Bool
  | ⟨name, s, optional, _⟩ :: ps, q :: qs => do
    if name == q.name && optional == q.optional then
      if ← s.equal q.shape then equalProperties ps qs else .ok false
    else .ok false
  | _, _ => .ok true
termination_by structural ps => ps

def containedMembers : List Shape → List Shape → Except Fault Bool
  | s :: ss, ts => do
    if ← ts.anyM fun t => s.equal t then containedMembers ss ts else .ok false
  | [], _ => .ok true
termination_by structural ss => ss
end

end Shape

end JsonShape
