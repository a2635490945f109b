import JsonShape.Proofs.Location
import JsonShape.Reference.Table

/-! The entries of reference tables. Whatever is done with tables, their entries are schemas of the
corpus under their ids, or definitions under the id of some schema. -/
namespace JsonShape
open List Option

def Corpus.IsId (corpus : Corpus) (id : String) : Prop :=
  id = "" ∨ ∃ location s, corpus.get? location = some s ∧ s.keywords.id = id

inductive Entry.Declared (corpus : Corpus) : Entry → Prop
  | resource {location : Location} {s : Schema} (present : corpus.get? location = some s) :
      Declared corpus (.resource s.keywords.id location)
  | definition {location : Location} {s : Schema} {step : Step} {name scope : String} {s? : Option Schema}
      (present : corpus.get? location = some s) (defined : (step, name, s?) ∈ s.keywords.localDefs)
      (owned : corpus.IsId scope) :
      Declared corpus ⟨scope, some name, s?.map fun _ => location.child step⟩

theorem Entry.Declared.isId {corpus : Corpus} {e : Entry} (declared : e.Declared corpus) :
    corpus.IsId e.id := by
  cases declared with
  | resource present => exact .inr ⟨_, _, present, rfl⟩
  | definition present defined owned => exact owned

theorem Entry.Declared.tied {corpus : Corpus} {e : Entry} (declared : e.Declared corpus)
    (resource : e.isResource = true) :
    ∃ location s, e = .resource s.keywords.id location ∧ corpus.get? location = some s := by
  cases declared with
  | resource present => exact ⟨_, _, rfl, present⟩
  | definition => cases resource

namespace Table

variable {test : Entry → Bool} {node? : Option Location} {location : Location} {added : List Entry}
  {key name id : String} {s : Schema}

def Over (corpus : Corpus) (t : Table) : Prop := ∀ e ∈ t.entries, e.Declared corpus

inductive Built (corpus : Corpus) : Table → Prop
  | ofDocuments (documents : List Nat) : Built corpus (.ofDocuments corpus documents)
  | append {t u : Table} (first : Built corpus t) (second : Built corpus u) : Built corpus (t.append u)
  | enter {t : Table} (built : Built corpus t) (location : Location) :
      Built corpus (t.enter corpus location)
  | resolve {t u : Table} {key : String} {node? : Option Location} (built : Built corpus t)
      (found : t.resolve corpus key = some (node?, u)) : Built corpus u

variable {corpus : Corpus} {t u : Table} {e x : Entry}

theorem mem_push : e ∈ (t.push x).entries ↔ e = x ∨ e ∈ t.entries := by
  by_cases same : e = x
  · simp [push, same]
  · simp [push, same]

theorem innermost?_mem (found : t.innermost? test = some e) : e ∈ t.entries := by
  have member := mem_of_find?_eq_some found
  exact mem_reverse.mp member

theorem innermost?_test (found : t.innermost? test = some e) : test e = true :=
  find?_some found

theorem innermost?_eq_some (member : e ∈ t.entries) (passes : test e = true)
    (unique : ∀ e' ∈ t.entries, test e' = true → e' = e) : t.innermost? test = some e := by
  cases found : t.innermost? test with
  | none => exact absurd passes (find?_eq_none.mp found e (mem_reverse.mpr member))
  | some e' => rw [unique e' (innermost?_mem found) (innermost?_test found)]

theorem resource?_isResource (found : t.resource? = some e) : e.isResource = true := innermost?_test found

theorem resourceById?_test (found : t.resourceById? id = some e) : e.isResource = true ∧ e.id = id := by
  have test := innermost?_test found
  simpa using test

theorem definition?_test (found : t.definition? id name = some e) : e.name? = some name ∧ e.id = id := by
  have test := innermost?_test found
  simpa using test

theorem anyDefinition?_test (found : t.anyDefinition? name = some e) : e.name? = some name := by
  have test := innermost?_test found
  simpa using test

def additions (k : Keywords Schema) (location : Location) (scope : String) : List Entry :=
  (if k.id = "" then [] else [.resource k.id location]) ++
    k.localDefs.map fun (step, name, s?) =>
      ⟨if k.id = "" then scope else k.id, some name, s?.map fun _ => location.child step⟩

theorem enterSchema_eq (t : Table) (k : Keywords Schema) (location : Location) (scope : String) :
    t.enterSchema k location scope = (additions k location scope).foldl push t := by
  by_cases own : k.id = ""
  · simp [enterSchema, additions, own, foldl_map]
  · simp [enterSchema, additions, own, foldl_map]

theorem mem_foldl_push : e ∈ (added.foldl push t).entries ↔ e ∈ added ∨ e ∈ t.entries := by
  induction added generalizing t with
  | nil => simp
  | cons first rest ih => rw [foldl_cons, ih, mem_push, mem_cons]; tauto

theorem resolve_table (found : t.resolve corpus key = some (node?, u)) :
    u = t ∨ ∃ r ∈ t.entries, r.isResource = true ∧ u = t.push r := by
  unfold resolve at found
  dsimp only at found
  split at found
  · split_ifs at found with bare
    · obtain ⟨r, -, equal⟩ := map_eq_some_iff.mp found
      exact .inl (Prod.mk.inj equal).2.symm
    · split at found
      · rename_i r reached
        have equal := (Prod.mk.inj (some.inj found)).2
        exact .inr ⟨r, innermost?_mem reached, (resourceById?_test reached).1, equal.symm⟩
      · obtain ⟨d, -, equal⟩ := map_eq_some_iff.mp found
        have equal := (Prod.mk.inj equal).2
        unfold promote at equal
        split at equal
        · rename_i r reached
          exact .inr ⟨r, innermost?_mem reached, (resourceById?_test reached).1, equal.symm⟩
        · exact .inl equal.symm
  · split_ifs at found with bare
    · obtain ⟨r, reached, rest⟩ := bind_eq_some_iff.mp found
      obtain ⟨node, -, equal⟩ := bind_eq_some_iff.mp rest
      have equal := (Prod.mk.inj (some.inj equal)).2
      exact .inr ⟨r, innermost?_mem reached, resource?_isResource reached, equal.symm⟩
    · obtain ⟨r, reached, rest⟩ := bind_eq_some_iff.mp found
      obtain ⟨node, -, equal⟩ := bind_eq_some_iff.mp rest
      have equal := (Prod.mk.inj (some.inj equal)).2
      exact .inr ⟨r, innermost?_mem reached, (resourceById?_test reached).1, equal.symm⟩

theorem Over.push (covered : t.Over corpus) (declared : x.Declared corpus) : (t.push x).Over corpus := by
  intro e member
  rcases mem_push.mp member with rfl | inside
  · exact declared
  · exact covered e inside

theorem Over.foldl_push (covered : t.Over corpus) (declared : ∀ x ∈ added, x.Declared corpus) :
    (added.foldl Table.push t).Over corpus := by
  intro e member
  rcases mem_foldl_push.mp member with new | old
  · exact declared e new
  · exact covered e old

theorem Over.scope (covered : t.Over corpus) : corpus.IsId t.scope := by
  unfold Table.scope
  cases found : t.resource? with
  | none => exact .inl rfl
  | some r => exact (covered r (innermost?_mem found)).isId

theorem additions_declared (present : corpus.get? location = some s) {scope : String}
    (owned : corpus.IsId scope) : ∀ x ∈ additions s.keywords location scope, x.Declared corpus := by
  intro x member
  rcases mem_append.mp member with own | defined
  · split_ifs at own with unnamed
    · cases own
    · rw [mem_singleton.mp own]
      exact .resource present
  · obtain ⟨⟨step, name, s?⟩, inside, rfl⟩ := mem_map.mp defined
    refine .definition present inside ?_
    split_ifs with unnamed
    · exact owned
    · exact .inr ⟨location, s, present, rfl⟩

theorem Over.enterSchema (covered : t.Over corpus) (present : corpus.get? location = some s)
    {scope : String} (owned : corpus.IsId scope) :
    (t.enterSchema s.keywords location scope).Over corpus := by
  rw [enterSchema_eq]
  exact covered.foldl_push (additions_declared present owned)

theorem Over.enter (covered : t.Over corpus) (location : Location) :
    (t.enter corpus location).Over corpus := by
  unfold Table.enter
  cases present : corpus.get? location with
  | none => exact covered
  | some s => exact covered.enterSchema present covered.scope

theorem ofDocuments_induction {P : Table → Prop} (start : P empty)
    (step : ∀ t location s, (corpus.Ordered → corpus.get? location = some s) → P t →
      P ((t.push (.resource s.keywords.id location)).enterSchema s.keywords location s.keywords.id))
    (documents : List Nat) : P (ofDocuments corpus documents) := by
  have document : ∀ t number, P t → P (addDocument corpus t number) := by
    intro t number holds
    unfold addDocument
    cases present : corpus[number]? with
    | none => exact holds
    | some s =>
      have places : ∀ place ∈ s.walk, corpus.Ordered → corpus.get? ⟨number, place.1⟩ = some place.2 :=
        fun place member ordered => corpus.get?_of_mem_walk ordered present member
      dsimp only
      -- The walk is folded over, so the statement is about every list of places of the corpus.
      generalize s.walk = visited at places
      induction visited generalizing t with
      | nil => exact holds
      | cons place rest ih =>
        have here := places place mem_cons_self
        rw [foldl_cons]
        apply ih
        · split_ifs
          · exact step t _ _ here holds
          · exact holds
        · exact (forall_mem_cons.mp places).2
  unfold ofDocuments
  generalize empty = t at start
  induction documents generalizing t with
  | nil => exact start
  | cons number rest ih => exact ih _ (document t number start)

theorem Over.append (first : t.Over corpus) (second : u.Over corpus) : (t.append u).Over corpus :=
  first.foldl_push second

theorem Over.resolve (covered : t.Over corpus) (found : t.resolve corpus key = some (node?, u)) :
    u.Over corpus := by
  rcases resolve_table found with rfl | ⟨r, member, -, rfl⟩
  · exact covered
  · exact covered.push (covered r member)

theorem Built.over (ordered : corpus.Ordered) (built : Built corpus t) : t.Over corpus := by
  induction built with
  | ofDocuments documents =>
    refine ofDocuments_induction (fun e member => by cases member)
      (fun t location s present covered => ?_) documents
    have present := present ordered
    exact (covered.push (.resource present)).enterSchema present (.inr ⟨_, _, present, rfl⟩)
  | append _ _ first second => exact first.append second
  | enter _ location covered => exact covered.enter location
  | resolve _ found covered => exact covered.resolve found

end Table

end JsonShape
