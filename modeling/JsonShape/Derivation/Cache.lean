import JsonShape.Derivation

/-! A memory of derivations. It holds a fixed number of them; the one that was not asked for the
longest gives way to a new one. -/
namespace JsonShape.Derivation

/-- What a derivation depends on. -/
structure Request where
  node : Location
  options : Options
  fingerprint : Fingerprint
  deriving DecidableEq

/-- Remembered derivations, the one asked for last first. -/
structure Cache where
  size : Nat
  entries : List (Request × Outcome)

namespace Cache

def defaultSize : Nat := 256

def ofSize (size : Int) : Except String Cache :=
  if size < 0 then .error ("schematype: cache size must be positive, got " ++ toString size)
  else .ok ⟨if size == 0 then defaultSize else size.toNat, []⟩

def length (c : Cache) : Nat := c.entries.length

def purge (c : Cache) : Cache := { c with entries := [] }

def find? (c : Cache) (r : Request) : Option (Outcome × Cache) :=
  (c.entries.find? (·.1 == r)).map fun found =>
    (found.2, { c with entries := found :: c.entries.filter (·.1 != r) })

def add (c : Cache) (r : Request) (o : Outcome) : Cache :=
  { c with entries := ((r, o) :: c.entries.filter (·.1 != r)).take c.size }

def derive (c : Cache) (corpus : Corpus) (node : Location) (t : Table) (options : Options) :
    Graph.Build (Outcome × Bool × Cache) := do
  let id := ((corpus.get? node).map (·.keywords.id)).getD ""
  let r : Request := ⟨node, options, (t.push (.resource id node)).fingerprint⟩
  match c.find? r with
  | some (o, c) => return (o, true, c)
  | none =>
    let o ← Derivation.run corpus node t options
    return (o, false, c.add r o)

end Cache

end JsonShape.Derivation
