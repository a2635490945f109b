/-! What a derivation can be asked for. -/
namespace JsonShape

/-- Whose values are described: those that a client sends, or those that a server answers, where
properties with a default are always present. -/
inductive Mode where
  | request | response
  deriving DecidableEq

def Mode.name : Mode → String
  | request => "request"
  | response => "response"

/-- Whether a required property that leads back into its own shape stays required. -/
inductive Recursion where
  | optional | required
  deriving DecidableEq

structure Options where
  mode : Mode := .request
  recursion : Recursion := .optional
  /-- Combinators that cannot be expressed are errors and not only warnings. -/
  strict : Bool := false
  /-- Stops at the first issue. -/
  failFast : Bool := false
  deriving DecidableEq

end JsonShape
