import JsonShape.Proofs.PathTokens

/-! Places and their pointers. The pointer of a place that a walk visits leads back to it, and a
pointer that is found leads to a place that the walk visits. -/
namespace JsonShape
open List Option

namespace Step

theorem ofTokens?_flatMap (steps : List Step) : ofTokens? (steps.flatMap tokens) = some steps := by
  induction steps with
  | nil => rfl
  | cons step rest ih =>
    rw [flatMap_cons, ofTokens?_append (ofTokens?_tokens step), ih]
    rfl

theorem toList_join_slashes {tokens : List String} (some : tokens ≠ []) :
    (String.join (tokens.map ("/" ++ ·))).toList = '/' :: ("/".intercalate tokens).toList := by
  induction tokens with
  | nil => exact absurd rfl some
  | cons token rest ih =>
    cases rest with
    | nil => simp
    | cons next more =>
      rw [map_cons, String.join_cons, String.toList_append, ih (by simp), String.toList_append]
      simp [String.intercalate_cons_cons]

theorem ofPointer?_pointer (steps : List Step) : ofPointer? (pointer steps) = some steps := by
  cases steps with
  | nil => rfl
  | cons step rest =>
    -- the first token is a keyword
    have keyword : ∀ more, step.tokens ++ more ≠ [] ∧ step.tokens ++ more ≠ [""] := by
      cases step <;> simp [tokens]
    obtain ⟨some, written⟩ := keyword (rest.flatMap tokens)
    rw [← flatMap_cons] at some written
    have pieces : Text.split '/' ("/".intercalate ((step :: rest).flatMap tokens)) =
        (step :: rest).flatMap tokens := by
      refine Text.split_intercalate (fun token member => ?_) some
      obtain ⟨own, -, inside⟩ := mem_flatMap.mp member
      exact (of_mem_tokens inside).2
    have longer : ("/".intercalate ((step :: rest).flatMap tokens)).toList ≠ [] := by
      intro empty
      rw [String.toList_eq_nil_iff.mp empty] at pieces
      exact written pieces.symm
    rw [pointer, ← String.ofList_toList (s := String.join _), toList_join_slashes some,
      ofPointer?_slash longer, String.ofList_toList, pieces,
      ofTokens?_flatMap]

end Step

namespace Schema

variable {s : Schema}

theorem lookup?_eq_some_iff {pointer : String} {steps : List Step} :
    s.lookup? pointer = some steps ↔ Step.ofPointer? pointer = some steps ∧ ∃ n, s.at? steps = some n := by
  constructor
  · intro found
    obtain ⟨read, here, found⟩ := bind_eq_some_iff.mp found
    obtain ⟨n, reached, equal⟩ := bind_eq_some_iff.mp found
    obtain rfl := some.inj equal
    exact ⟨here, n, reached⟩
  · rintro ⟨read, n, reached⟩
    simp [lookup?, read, reached]

/-- Walking through a schema and looking up pointers agree, if each map of the schema has a name
once. -/
theorem lookup?_iff_walk (ordered : s.Everywhere fun t => t.keywords.Ordered) :
    (∀ steps n, (steps, n) ∈ s.walk → s.lookup? (Step.pointer steps) = some steps ∧
      s.at? steps = some n) ∧ ∀ pointer steps, s.lookup? pointer = some steps →
      ∃ n, s.at? steps = some n ∧ (steps, n) ∈ s.walk := by
  constructor
  · intro steps n visited
    obtain ⟨more, equal, reached⟩ := at?_of_mem_walkFrom s [] ordered visited
    obtain rfl : steps = more := equal
    exact ⟨lookup?_eq_some_iff.mpr ⟨Step.ofPointer?_pointer steps, n, reached⟩, reached⟩
  · intro pointer steps found
    obtain ⟨-, n, reached⟩ := lookup?_eq_some_iff.mp found
    exact ⟨n, reached, mem_walkFrom_of_at? [] reached⟩

def oddNames : Schema := .node {
  properties? := some [("", some (.node { items? := some (ofBool true) })), ("items", none),
      ("~1/0", some (ofBool false))]
  defs? := some [("properties", some (.node { anyOf? := some [none, some empty] }))] }

theorem oddNames_found :
    (oddNames.Everywhere fun t => t.keywords.Ordered) ∧
      oddNames.walk.map (Step.pointer ·.1) = ["", "/properties/", "/properties//items",
      "/properties/~01~10", "/$defs/properties", "/$defs/properties/anyOf/1"] ∧
      oddNames.lookup? "/properties//items" = some [.property "", .items] ∧
      oddNames.lookup? "/properties/~01~10" = some [.property "~1/0"] := by
  have each : ∀ place ∈ oddNames.walk, place.2.keywords.Ordered := by decide +kernel
  have ordered : oddNames.Everywhere fun t => t.keywords.Ordered :=
    fun steps t reached => each (steps, t) (mem_walkFrom_of_at? [] reached)
  have visits := (lookup?_iff_walk ordered).1
  refine ⟨ordered, by decide +kernel, ?_, ?_⟩
  · exact (visits [.property "", .items] (ofBool true) (mem_walkFrom_of_at? [] rfl)).1
  · exact (visits [.property "~1/0"] (ofBool false) (mem_walkFrom_of_at? [] rfl)).1

end Schema

end JsonShape
