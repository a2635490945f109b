import JsonShape.Proofs.Spelling
import JsonShape.Proofs.Literal
import JsonShape.Proofs.Location
import Mathlib.Logic.Relation
import Mathlib.Tactic.MkIffOfInductiveProp

/-! Validity of the values of documents against schemas, and the plain schemas, whose keywords leave
no room between validity and shape. -/
namespace JsonShape
open Option Entries

namespace Value

/-- The values of JSON documents. Numbers are numerals. -/
inductive Instance : Value → Prop
  | null : Instance .null
  | bool (b : Bool) : Instance (.bool b)
  | string (s : String) : Instance (.string s)
  | number (d : Number.Spelling) : Instance (.decimal d.text)
  | seq {items : List Value} (inside : ∀ v ∈ items, Instance v) : Instance (.seq .values items)
  | map {entries : List (String × Value)} (ascending : Ascending entries)
      (inside : ∀ entry ∈ entries, Instance entry.2) : Instance (.map .values entries)

theorem Instance.document {v : Value} (inst : v.Instance) : v.Document := by
  induction inst with
  | null => exact .null
  | bool b => exact .bool b
  | string s => exact .string s
  | number d => exact .decimal d.text
  | seq _ ih => exact .seq ih
  | map ascending _ ih => exact .map ascending ih

def documentType : Value → String
  | bool _ => "boolean"
  | string _ => "string"
  | decimal _ => "number"
  | seq _ _ => "array"
  | map _ _ => "object"
  | _ => "null"

inductive Scalar : Value → Prop
  | null : Scalar .null
  | bool (b : Bool) : Scalar (.bool b)
  | string (s : String) : Scalar (.string s)
  | number (d : Number.Spelling) : Scalar (.decimal d.text)

inductive Equals (same : Number.Spelling → Number.Spelling → Prop) : Value → Value → Prop
  | null : Equals same .null .null
  | bool (b : Bool) : Equals same (.bool b) (.bool b)
  | string (s : String) : Equals same (.string s) (.string s)
  | number {d c : Number.Spelling} (equal : same d c) : Equals same (.decimal d.text) (.decimal c.text)

inductive Occurs (d : Number.Spelling) : Value → Prop
  | here : Occurs d (.decimal d.text)
  | item {items : List Value} {v : Value} (member : v ∈ items) (inside : Occurs d v) :
      Occurs d (.seq .values items)
  | entry {entries : List (String × Value)} {key : String} {v : Value} (member : (key, v) ∈ entries)
      (inside : Occurs d v) :
      Occurs d (.map .values entries)

theorem Occurs.text_eq {d : Number.Spelling} {text : String} (occurs : Occurs d (.decimal text)) :
    d.text = text := by
  generalize equal : decimal text = v at occurs
  cases occurs with
  | here => exact (Value.decimal.inj equal).symm
  | _ => cases equal

theorem meaning_eq_iff {c d : Number.Spelling} :
    (decimal d.text).meaning = (decimal c.text).meaning ↔ d.Told c := by
  classical
  rw [meaning, meaning, Number.readRational?_text, Number.readRational?_text]
  by_cases moderate : d.Moderate <;> by_cases moderate' : c.Moderate
  · simp only [moderate, moderate', if_true, Meaning.number.injEq, Number.Spelling.Told, true_and]
    exact ⟨.inr, fun told => told.elim (fun same => (moderate.of_text_eq same).2) id⟩
  · simp only [moderate, moderate', if_true, if_false, reduceCtorEq, Number.Spelling.Told,
      false_and, and_false, or_false, false_iff]
    exact fun same => moderate' (moderate.of_text_eq same).1
  · simp only [moderate, moderate', if_true, if_false, reduceCtorEq, Number.Spelling.Told,
      false_and, or_false, false_iff]
    exact fun same => moderate (moderate'.of_text_eq same.symm).1
  · simp only [moderate, moderate', if_false, Meaning.spelling.injEq, Number.Spelling.Told,
      false_and, or_false]

theorem meaning_eq_iff_equals {v c : Value} (inst : v.Instance) (scalar : c.Scalar) :
    v.meaning = c.meaning ↔ v.Equals Number.Spelling.Told c := by
  constructor
  · intro same
    have kinds := literalKind_eq_of_meaning_eq inst.document (by cases scalar <;> constructor) same
    cases scalar with
    | null =>
      cases inst with
      | null => exact .null
      | _ => cases kinds
    | bool b =>
      cases inst with
      | bool =>
        cases same
        exact .bool b
      | _ => cases kinds
    | string s =>
      cases inst with
      | string =>
        cases same
        exact .string s
      | _ => cases kinds
    | number c =>
      cases inst with
      | number d => exact .number (meaning_eq_iff.mp same)
      | _ => cases kinds
  · intro equals
    cases equals with
    | number told => exact meaning_eq_iff.mpr told
    | _ => rfl

end Value

namespace Schema

def definitionRef (name : String) : String := "#/$defs/" ++ Text.Pointer.escape name

/-- A value is valid against a schema whose references mean definitions of a root: every keyword
that is set is satisfied. -/
inductive Valid (same : Number.Spelling → Number.Spelling → Prop) (root : Schema) : Schema → Value → Prop
  | all {k : Keywords Schema} {v : Value} (all : k.boolean? = some true) : Valid same root (.node k) v
  | keywords {k : Keywords Schema} {v : Value} (target branch : Schema) (assertive : k.boolean? = none)
      (refers : k.ref ≠ "" → ∃ name, k.ref = definitionRef name ∧ root.child? (.defs name) = some target)
      (followed : k.ref ≠ "" → Valid same root target v)
      (const : ∀ c, k.const? = some c → v.Equals same c)
      (enum : ∀ cs, k.enum? = some cs → ∃ c ∈ cs, v.Equals same c)
      (type : k.type ≠ .absent → v.documentType ∈ k.type.names)
      (required : ∀ entries, v = .map .values entries → ∀ name ∈ k.required?.getD [],
      get? entries name ≠ none)
      (properties : ∀ entries, v = .map .values entries →
      ∀ name s, (name, some s) ∈ k.properties?.getD [] →
        ∀ x, get? entries name = some x → Valid same root s x)
      (additional : ∀ entries, v = .map .values entries → ∀ s, k.additionalProperties? = some s → ∀ name x,
        get? entries name = some x → (∀ s?, (name, s?) ∉ k.properties?.getD []) → Valid same root s x)
      (items : ∀ vs, v = .seq .values vs → ∀ s, k.items? = some s → ∀ x ∈ vs, Valid same root s x)
      (listed : ∀ list, k.anyOf? = some list → some branch ∈ list)
      (chosen : k.anyOf?.isSome = true → Valid same root branch v)
      (each : ∀ list, k.allOf? = some list → ∀ s, some s ∈ list → Valid same root s v) :
      Valid same root (.node k) v

/-- Every keyword is satisfied, where it is known which parts are valid. -/
@[mk_iff]
structure Satisfies (same : Number.Spelling → Number.Spelling → Prop) (root : Schema)
    (valid : Schema → Value → Prop) (k : Keywords Schema) (v : Value) : Prop where
  ref : k.ref ≠ "" → ∃ name s, k.ref = definitionRef name ∧ root.child? (.defs name) = some s ∧ valid s v
  const : ∀ c, k.const? = some c → v.Equals same c
  enum : ∀ cs, k.enum? = some cs → ∃ c ∈ cs, v.Equals same c
  type : k.type ≠ .absent → v.documentType ∈ k.type.names
  required : ∀ entries, v = .map .values entries → ∀ name ∈ k.required?.getD [], get? entries name ≠ none
  properties : ∀ entries, v = .map .values entries → ∀ name s, (name, some s) ∈ k.properties?.getD [] →
    ∀ x, get? entries name = some x → valid s x
  additional : ∀ entries, v = .map .values entries → ∀ s, k.additionalProperties? = some s → ∀ name x,
    get? entries name = some x → (∀ s?, (name, s?) ∉ k.properties?.getD []) → valid s x
  items : ∀ vs, v = .seq .values vs → ∀ s, k.items? = some s → ∀ x ∈ vs, valid s x
  anyOf : ∀ list, k.anyOf? = some list → ∃ s, some s ∈ list ∧ valid s v
  allOf : ∀ list, k.allOf? = some list → ∀ s, some s ∈ list → valid s v

theorem valid_iff {same : Number.Spelling → Number.Spelling → Prop} {root : Schema}
    {k : Keywords Schema} {v : Value} :
    Valid same root (.node k) v ↔ k.boolean? = some true ∨ k.boolean? = none ∧
      Satisfies same root (Valid same root) k v := by
  constructor
  · intro valid
    cases valid with
    | all all => exact .inl all
    | keywords target branch assertive refers followed const enum type required properties
        additional items listed chosen each =>
      refine .inr ⟨assertive, ?_, const, enum, type, required, properties, additional, items, ?_, each⟩
      · intro set
        obtain ⟨name, equal, found⟩ := refers set
        exact ⟨name, target, equal, found, followed set⟩
      · exact fun list equal => ⟨branch, listed list equal, chosen (by rw [equal]; rfl)⟩
  · rintro (all | ⟨assertive, satisfied⟩)
    · exact .all all
    · obtain ⟨target, refers, followed⟩ : ∃ target, (k.ref ≠ "" → ∃ name, k.ref = definitionRef name ∧
          root.child? (.defs name) = some target) ∧ (k.ref ≠ "" → Valid same root target v) := by
        by_cases set : k.ref = ""
        · exact ⟨empty, fun other => absurd set other, fun other => absurd set other⟩
        · obtain ⟨name, s, equal, found, valid⟩ := satisfied.ref set
          exact ⟨s, fun _ => ⟨name, equal, found⟩, fun _ => valid⟩
      obtain ⟨branch, listed, chosen⟩ : ∃ branch, (∀ list, k.anyOf? = some list → some branch ∈ list) ∧
          (k.anyOf?.isSome = true → Valid same root branch v) := by
        cases set : k.anyOf? with
        | none => exact ⟨empty, by simp, by simp⟩
        | some list =>
          obtain ⟨s, member, valid⟩ := satisfied.anyOf list set
          refine ⟨s, fun list' equal => ?_, fun _ => valid⟩
          rwa [← some.inj equal]
      exact .keywords target branch assertive refers followed satisfied.const satisfied.enum
        satisfied.type satisfied.required
        satisfied.properties satisfied.additional satisfied.items listed chosen satisfied.allOf

end Schema

def Keywords.bare {α : Type} (k : Keywords α) : Keywords α :=
  { k with dialect := "", title := "", description := "", default? := none, defs? := none }

namespace Schema

variable {same : Number.Spelling → Number.Spelling → Prop} {root : Schema} {k : Keywords Schema}
  {v : Value}

theorem valid_bare_iff : Valid same root (.node k.bare) v ↔ Valid same root (.node k) v := by
  rw [valid_iff, valid_iff, satisfies_iff, satisfies_iff]
  rfl

def scalarTypes : List String := ["null", "boolean", "number", "string"]

/-- Schemas that shapes express. Apart from what describes them they have the keywords of one form
only. -/
inductive Plain (root : Schema) : Schema → Prop
  | boolean {k : Keywords Schema} {b : Bool} (only : k.bare = { boolean? := some b }) :
      Plain root (.node k)
  | free {k : Keywords Schema} (only : k.bare = {}) : Plain root (.node k)
  | type {k : Keywords Schema} {name : String} (scalar : name ∈ scalarTypes)
      (only : k.bare = { type := .one name }) :
      Plain root (.node k)
  | types {k : Keywords Schema} {names : List String} (scalar : ∀ name ∈ names, name ∈ scalarTypes)
      (only : k.bare = { type := .list names }) : Plain root (.node k)
  | const {k : Keywords Schema} {c : Value} (scalar : c.Scalar)
      (only : k.bare = { const? := some c }) : Plain root (.node k)
  | enum {k : Keywords Schema} {cs : List Value} (scalar : ∀ c ∈ cs, c.Scalar)
      (only : k.bare = { enum? := some cs }) :
      Plain root (.node k)
  | array {k : Keywords Schema} {items? : Option Schema} (inside : ∀ s, items? = some s → Plain root s)
      (only : k.bare = { type := .one "array", items? := items? }) : Plain root (.node k)
  | object {k : Keywords Schema} {props? : Option (List (String × Schema))}
      {required? : Option (List String)}
      {additional? : Option Schema} {branches? parts? : Option (List Schema)}
      (inside : ∀ prop ∈ props?.getD [], Plain root prop.2)
      (known : ∀ name ∈ required?.getD [], name ∈ (props?.getD []).map Prod.fst)
      (additional : ∀ s, additional? = some s → Plain root s)
      (admits : ∀ s, additional? = some s → s.keywords.boolean? ≠ some false)
      (declared : branches?.isSome = true → props?.isSome = true)
      (branches : ∀ s ∈ branches?.getD [], ∃ names, s.keywords.bare = { required? := some names } ∧
        ∀ name ∈ names, name ∈ (props?.getD []).map Prod.fst)
      (parts : ∀ s ∈ parts?.getD [], Plain root s)
      (only : k.bare = {
        type := .one "object"
        properties? := props?.map (·.map fun prop => (prop.1, some prop.2))
        required? := required?
        additionalProperties? := additional?
        anyOf? := branches?.map (·.map some)
        allOf? := parts?.map (·.map some) }) : Plain root (.node k)
  | anyOf {k : Keywords Schema} {list : List Schema} (inside : ∀ s ∈ list, Plain root s)
      (only : k.bare = { anyOf? := some (list.map some) }) : Plain root (.node k)
  | allOf {k : Keywords Schema} {list : List Schema} (inside : ∀ s ∈ list, Plain root s)
      (only : k.bare = { allOf? := some (list.map some) }) : Plain root (.node k)
  | ref {k : Keywords Schema} {name : String} {s : Schema} (declared : root.child? (.defs name) = some s)
      (only : k.bare = { ref := definitionRef name }) : Plain root (.node k)

def Refers (root : Schema) (name target : String) : Prop :=
  ∃ steps s, root.at? (.defs name :: steps) = some s ∧ s.keywords.ref = definitionRef target

/-- A plain schema whose references mean its own definitions, which are plain and do not lead back
to themselves. -/
structure PlainRoot (root : Schema) : Prop where
  plain : Plain root root
  definitions : ∀ name s, root.child? (.defs name) = some s → Plain root s
  nested : ∀ steps s, steps ≠ [] → root.at? steps = some s → s.keywords.defs? = none
  acyclic : ∀ name, ¬ Relation.TransGen (Refers root) name name
  ordered : root.Everywhere fun s => s.keywords.Ordered

def IsConstant (root : Schema) (c : Number.Spelling) : Prop :=
  ∃ steps s, root.at? steps = some s ∧
    (s.keywords.const? = some (.decimal c.text) ∨ ∃ cs, s.keywords.enum? = some cs ∧ .decimal c.text ∈ cs)

theorem Valid.of_equals {same' : Number.Spelling → Number.Spelling → Prop} {s : Schema}
    (valid : Valid same root s v) (ordered : root.Everywhere fun s => s.keywords.Ordered)
    {steps : List Step} (reached : root.at? steps = some s)
    (stronger : ∀ c d, IsConstant root c → v.Occurs d → same d c →
      (Value.decimal d.text).Equals same' (.decimal c.text)) : Valid same' root s v := by
  induction valid generalizing steps with
  | all all => exact .all all
  | @keywords k v target branch assertive refers followed const enum type required properties
      additional items listed chosen each
      ihTarget ihProperty ihAdditional ihItem ihBranch ihPart =>
    have there (step : Step) {c : Schema} (found : (node k).child? step = some c) :
        root.at? (steps ++ [step]) = some c := by
      rw [at?_append, reached, bind_some, at?_cons, found]
      rfl
    have inList {list? : Option (List (Option Schema))} {list : List (Option Schema)} {s : Schema}
        (set : list? = some list)
        (member : some s ∈ list) : ∃ i : Nat, (list?.getD [])[i]? = some (some s) := by
      rw [set]
      exact List.getElem?_of_mem member
    have equals {c : Value} (equal : v.Equals same c)
        (isConstant : ∀ d, c = .decimal d.text → IsConstant root d) : v.Equals same' c := by
      cases equal with
      | number equal => exact stronger _ _ (isConstant _ rfl) .here equal
      | _ => constructor
    refine .keywords target branch assertive refers (fun set => ?_) (fun c set => ?_)
      (fun cs set => ?_) type required ?_ ?_ ?_ listed
      (fun set => ?_) ?_
    · obtain ⟨name, -, declared⟩ := refers set
      refine @ihTarget set [.defs name] ?_ stronger
      rw [at?_cons, declared]
      rfl
    · exact equals (const c set) fun d equal => ⟨steps, _, reached, .inl (equal ▸ set)⟩
    · obtain ⟨c, member, equal⟩ := enum cs set
      exact ⟨c, member, equals equal fun d equal => ⟨steps, _, reached, .inr ⟨cs, set, equal ▸ member⟩⟩⟩
    · rintro entries rfl name s member x found
      refine ihProperty entries rfl name s member x found
        (there (.property name) (named_found (ordered steps _ reached).properties member)) ?_
      exact fun c d isConstant occurs =>
        stronger c d isConstant (.entry (mem_of_get?_eq_some found) occurs)
    · rintro entries rfl s set name x found undeclared
      refine ihAdditional entries rfl s set name x found undeclared (there .additionalProperties set) ?_
      exact fun c d isConstant occurs =>
        stronger c d isConstant (.entry (mem_of_get?_eq_some found) occurs)
    · rintro vs rfl s set x member
      refine ihItem vs rfl s set x member (there .items set) ?_
      exact fun c d isConstant occurs => stronger c d isConstant (.item member occurs)
    · obtain ⟨list, equal⟩ := isSome_iff_exists.mp set
      obtain ⟨i, found⟩ := inList equal (listed list equal)
      exact ihBranch set (there (.anyOf i) (listed_found found)) stronger
    · intro list equal s member
      obtain ⟨i, found⟩ := inList equal member
      exact ihPart list equal s member (there (.allOf i) (listed_found found)) stronger

/-- Numbers in a value that denote the same as a constant are written like it, or both have
exponents in bounds. -/
def Comparable (root : Schema) (v : Value) : Prop :=
  ∀ c d, IsConstant root c → v.Occurs d → d.value = c.value → d.text = c.text ∨ d.Moderate ∧ c.Moderate

theorem valid_told_iff (ordered : root.Everywhere fun s => s.keywords.Ordered)
    (comparable : Comparable root v) :
    Valid Number.Spelling.Told root root v ↔ Valid Number.Spelling.Denote root root v := by
  constructor
  · refine fun valid => valid.of_equals ordered (at?_nil root) fun c d _ _ told => ?_
    rcases told with spelled | ⟨-, -, equal⟩
    · rw [spelled]
      exact .number rfl
    · exact .number equal
  · refine fun valid => valid.of_equals ordered (at?_nil root) fun c d isConstant occurs equal =>
      .number ?_
    exact (comparable c d isConstant occurs equal).imp id fun moderate => ⟨moderate.1, moderate.2, equal⟩

/-- One schema is read in the course of reading another: it is a part of it, or a reference leads to
it. -/
inductive Leads (root : Schema) : List Step → List Step → Prop
  | part (steps : List Step) (step : Step) : Leads root steps (steps ++ [step])
  | reference {steps : List Step} {s : Schema} {name : String} (found : root.at? steps = some s)
      (refers : s.keywords.ref = definitionRef name) : Leads root steps [.defs name]

theorem inside_or_refers {start stop : List Step} (leads : Relation.TransGen (Leads root) start stop) :
    (∃ more, more ≠ [] ∧ stop = start ++ more) ∨ ∃ name rest, stop = .defs name :: rest ∧
        ∀ source before, start = .defs source :: before → Relation.TransGen (Refers root) source name := by
  have refers_of {source target : String} {before : List Step} {s : Schema}
      (found : root.at? (.defs source :: before) = some s)
      (refers : s.keywords.ref = definitionRef target) : Relation.TransGen (Refers root) source target :=
    .single ⟨before, s, found, refers⟩
  induction leads with
  | single leads =>
    cases leads with
    | part step => exact .inl ⟨[step], by simp, rfl⟩
    | @reference s name found refers =>
      refine .inr ⟨name, [], rfl, ?_⟩
      rintro source before rfl
      exact refers_of found refers
  | tail _ leads ih =>
    cases leads with
    | part step =>
      rcases ih with ⟨more, _, rfl⟩ | ⟨name, rest, rfl, refers⟩
      · exact .inl ⟨more ++ [step], by simp, by simp⟩
      · exact .inr ⟨name, rest ++ [step], rfl, refers⟩
    | @reference s name found refers =>
      refine .inr ⟨name, [], rfl, ?_⟩
      rintro source before rfl
      rcases ih with ⟨more, _, rfl⟩ | ⟨middle, rest, rfl, refers'⟩
      · exact refers_of found refers
      · exact (refers' source before rfl).trans (refers_of found refers)

theorem PlainRoot.not_leads_back (plain : root.PlainRoot) (steps : List Step) :
    ¬ Relation.TransGen (Leads root) steps steps := by
  intro leads
  rcases inside_or_refers leads with ⟨more, proper, equal⟩ | ⟨name, rest, rfl, refers⟩
  · exact proper (by simpa using equal)
  · exact plain.acyclic name (refers name rest rfl)

end Schema

end JsonShape
