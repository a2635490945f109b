/-! Faults: the ways an operation can break off instead of answering. -/
namespace JsonShape

inductive Fault where
  /-- Two values of a type without equality were compared. -/
  | incomparable
  /-- Something was asked for outside its range. -/
  | outOfRange
  /-- A handle that has a target was given another. -/
  | boundTwice (name : String)
  /-- A budget was too small; the budgets of this library are computed so that it is not. -/
  | exhausted
  deriving DecidableEq

def Fault.message : Fault → String
  | incomparable => "values of this type cannot be compared"
  | outOfRange => "outside of the range"
  | boundTwice name => "shape: Named " ++ name ++ " bound twice"
  | exhausted => "exhausted"

end JsonShape
