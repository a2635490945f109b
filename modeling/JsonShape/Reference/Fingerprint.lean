import JsonShape.Reference.Table

/-! Fingerprints: for each key that a table answers, the schema it answers with. Tables with one
fingerprint resolve references alike. -/
namespace JsonShape

/-- Keys with the schemas they lead to, in ascending order of the keys. -/
abbrev Fingerprint := List (String × Option Location)

/-- Joins the parts of a key by a character that names do not use. -/
def fingerprintKey (parts : List String) : String := "\x00".intercalate parts

def Entry.keys (e : Entry) : List String :=
  match e.name? with
  | some name => [fingerprintKey ["d", e.id, name], fingerprintKey ["n", name]]
  | none => ["#", fingerprintKey ["r", e.id]]

/-- A key belongs to the innermost entry that answers it. -/
def Table.fingerprint (t : Table) : Fingerprint :=
  Entries.ofList (t.entries.flatMap fun e => e.keys.map fun key => (key, e.node?))

def Location.label (location : Location) : String :=
  toString location.document ++ ":" ++ Step.pointer location.steps

def Fingerprint.spell (spelling : Option Location → String) (f : Fingerprint) : String :=
  String.join (f.map fun (key, node?) => key ++ "=" ++ spelling node? ++ ";")

def Fingerprint.text (f : Fingerprint) : String :=
  f.spell fun node? => (node?.map (·.label)).getD "nil"

def addressText (address : Nat) : String := "0x" ++ String.ofList (Nat.toDigits 16 address)

end JsonShape
