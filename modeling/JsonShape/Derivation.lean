import JsonShape.Derivation.Rules

/-! Derivation: from schemas to shapes. A schema that is met again while it is being derived,
through a table that resolves alike, becomes a handle. -/
namespace JsonShape.Derivation

def derive (corpus : Corpus) (options : Options) : Nat → Option Location → Table → Path → Derive Result
  | 0, _, _, _ => throw .exhausted
  | budget + 1, location?, t, path => do
    if (← get).stopped then return (.any, none)
    match location?.bind fun location => (corpus.get? location).map (location, ·) with
    | none => return (.any, none)
    | some (location, s) =>
      let k := s.keywords
      let table := t.enterSchema k location t.scope
      let key : Key := ⟨location, table.fingerprint⟩
      if let some f := (← get).stack.find? (·.key == key) then
        return (.handle (← handleOf f), some f.depth)
      if let some m := (← get).memo.find? (·.key == key) then
        let stack := (← get).stack
        return (m.shape, m.frame?.bind fun id => (stack.find? (·.id == id)).map (·.depth))
      let f ← openFrame key table k.title
      let result ← dispatch (derive corpus options budget) ⟨corpus, options, location, table,
          path, f.depth⟩ k
      closeFrame f result

/-- A budget that suffices: a schema is opened at most once with each table, and a table is a
sequence of different entries. -/
def deriveBudget (corpus : Corpus) (t : Table) : Nat :=
  let nodes := corpus.toList.flatMap (·.walk)
  let resources := (nodes.filter fun (_, s) => s.keywords.id != "").length
  let definitions := nodes.foldl (fun n (_, s) => n + s.keywords.localDefs.length) 0
  let entries := t.entries.length + resources + (t.entries.length + resources + 1) * definitions + 2
  -- The power is named in full, so that it is this one whatever else is known of powers.
  let sequences := @HPow.hPow Nat Nat Nat (@instHPow Nat Nat (@instPowNat Nat instNatPowNat))
      entries entries
  nodes.length * sequences + nodes.length + 2

inductive Refusal where
  | noSchema
  | canceled
  deriving DecidableEq

def Refusal.message : Refusal → String
  | noSchema => "schematype: nil schema"
  | canceled => "context canceled"

/-- What a derivation gives: a shape or issues, and warnings in any case. -/
structure Outcome where
  result : Except (List Issue) Shape
  warnings : List String

def run (corpus : Corpus) (node : Location) (t : Table) (options : Options) :
    Graph.Build Outcome := fun g => do
  let id := ((corpus.get? node).map (·.keywords.id)).getD ""
  let table := t.push (.resource id node)
  let ((shape, _), s) ← (derive corpus options (deriveBudget corpus table)
      (some node) table .root).run { graph := g }
  let result := if s.issues.isEmpty then .ok shape else .error s.issues
  .ok (⟨result, s.warnings⟩, s.graph)

end JsonShape.Derivation
