import JsonShape.Proofs.Interchange

/-! The forms of values. A check finds in a value what it finds in its plain form, and comparing it
with the literals of what is derived from documents is no fault. -/
namespace JsonShape

open Conformance Shape List

variable {g : Graph} {s : Shape}

theorem conforms_of_plain_eq (documented : g.Documented s) {v w : Value} (same : v.plain = w.plain)
    (passes : conforms g s v = .ok true) : conforms g s w = .ok true := by
  have documents : ∀ t ∈ [s], g.Documented t := forall_mem_singleton.mpr documented
  have leaves := leaves_reachedBy documents mem_cons_self .self
  exact conforms_of_check (covers_self documents) (.self leaves) documented same
    (issues_of_conforms passes)

/-- Whether a value has a shape does not depend on its form: the plain form is its own, and the
check has the same answer for it. -/
theorem conforms_plain (documented : g.Documented s) (v : Value) :
    v.plain.plain = v.plain ∧ ∃ answer, conforms g s v = .ok answer ∧
      conforms g s v.plain = .ok answer := by
  obtain ⟨answer, checked, means⟩ := conforms_decides_self documented v
  obtain ⟨answer', checked', means'⟩ := conforms_decides_self documented v.plain
  have agree : answer = true ↔ answer' = true := by
    rw [means, means']
    exact ⟨conforms_of_plain_eq documented v.plain_plain.symm,
      conforms_of_plain_eq documented v.plain_plain⟩
  exact ⟨v.plain_plain, answer, checked, Bool.eq_iff_iff.mpr agree ▸ checked'⟩

def labelLists : Graph :=
  ⟨#[⟨"Labels", "", some
  (.union 2 false [.array 0 (.handle 0), .literal 1 (.string "a"), .number true])⟩], 3⟩

def nestedLabels : Value := 
  .ref (some (.seq (.other "[2]interface \x7b\x7d" true) [.seq (.other "[]string" false) [.string "a"],
    .ref (some (.seq .values [.namedString "main.MyString" "a", .int "int" 5]))]))

theorem nestedLabels_plain :
    nestedLabels.plain = .seq .values
      [.seq .values [.string "a"], .seq .values [.string "a", .int "int" 5]] ∧
      conforms labelLists (.handle 0) nestedLabels = .ok true ∧
      conforms labelLists (.handle 0) nestedLabels.plain = .ok true := by
  have documented : labelLists.Documented (.handle 0) := by
    intro n w reached
    obtain ⟨-, rfl⟩ : n = 1 ∧ w = .string "a" := by
      simpa [labelLists, subshapes_eq, pieces, graphShapes] using reached.mem_shapes
    exact .string "a"
  obtain ⟨-, answer, checked, checked'⟩ := conforms_plain documented nestedLabels
  have passes : conforms labelLists (.handle 0) nestedLabels = .ok true := by cbv
  obtain rfl := Except.ok.inj (checked.symm.trans passes)
  exact ⟨by cbv, checked, checked'⟩

def stampSchema : Schema := .node { const? := some (.seq .values [.string "x", .map .values []]) }

theorem stampSchema_readable : Corpus.Readable #[stampSchema] := by
  let tree : Json.Tree := .object [("const", "", .array [.string "x", .object []])]
  exact .of_tree tree rfl

def stamp : Shape := .literal 0 (.seq .values [.string "x", .map .values []])

theorem stamp_made : Made False ⟨#[], 1⟩ [stamp, stamp] := by
  have derived : Derivation.run #[stampSchema] ⟨0, []⟩ (.ofDocuments #[stampSchema] [0]) {}
      {} = .ok (⟨.ok stamp, []⟩, ⟨#[], 1⟩) := by cbv
  have made : Made False ⟨#[], 1⟩ [stamp] :=
    .derive (.start {}) stampSchema_readable (.ofDocuments [0]) derived rfl
  exact .strict made mem_cons_self False.elim (by cbv)

def oddStamp : Value := .seq (.other "[2]interface \x7b\x7d" true) [.bytes [0],
  .ref (some (.map (.other "map[int]string" false) [("1", .string "")]))]

end JsonShape
