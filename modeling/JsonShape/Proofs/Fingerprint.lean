import JsonShape.Proofs.Table
import JsonShape.Reference.Fingerprint

/-! What fingerprints tell: tables with one fingerprint resolve each reference to one schema. -/
namespace JsonShape
open List Option

variable {test : Entry → Bool} {corpus : Corpus} {other id name : String}

def NulFree (text : String) : Prop := '\x00' ∉ text.toList

instance (text : String) : Decidable (NulFree text) := inferInstanceAs (Decidable (¬ _))

/-- The ids of schemas and the names of their definitions are free of the joining character. -/
def Corpus.NulFree (corpus : Corpus) : Prop :=
  ∀ location s, corpus.get? location = some s →
    JsonShape.NulFree s.keywords.id ∧ ∀ d ∈ s.keywords.localDefs, JsonShape.NulFree d.2.1

theorem Corpus.NulFree.of_places (each : ∀ place ∈ corpus.places, JsonShape.NulFree place.2.keywords.id ∧
    ∀ d ∈ place.2.keywords.localDefs, JsonShape.NulFree d.2.1) : corpus.NulFree :=
  fun _ _ present => each _ (Corpus.mem_places present)

theorem Corpus.NulFree.isId (free : corpus.NulFree) (named : corpus.IsId id) : JsonShape.NulFree id := by
  rcases named with rfl | ⟨location, s, present, rfl⟩
  · decide
  · exact (free location s present).1

theorem append_mark_inj {mark : Char} {before before' after after' : List Char}
    (absent : mark ∉ before) (absent' : mark ∉ before')
    (equal : before ++ mark :: after = before' ++ mark :: after') :
    before = before' ∧ after = after' := by
  induction before generalizing before' with
  | nil =>
    cases before' with
    | nil => exact ⟨rfl, (cons.inj equal).2⟩
    | cons c rest => exact absurd ((cons.inj equal).1 ▸ mem_cons_self) absent'
  | cons c rest ih =>
    cases before' with
    | nil => exact absurd ((cons.inj equal).1 ▸ mem_cons_self) absent
    | cons c' rest' =>
      obtain ⟨rfl, tails⟩ := cons.inj equal
      obtain ⟨rfl, same⟩ := ih (fun inside => absent (mem_cons_of_mem _ inside))
        (fun inside => absent' (mem_cons_of_mem _ inside)) tails
      exact ⟨rfl, same⟩

theorem resourceKey_toList (id : String) :
    (fingerprintKey ["r", id]).toList = 'r' :: '\x00' :: id.toList := by
  simp [fingerprintKey]

theorem nameKey_toList (name : String) :
    (fingerprintKey ["n", name]).toList = 'n' :: '\x00' :: name.toList := by
  simp [fingerprintKey]

theorem definitionKey_toList (id name : String) :
    (fingerprintKey ["d", id, name]).toList = 'd' :: '\x00' :: (id.toList ++ '\x00' :: name.toList) := by
  simp [fingerprintKey]

theorem resourceKey_inj : fingerprintKey ["r", id] = fingerprintKey ["r", other] ↔ id = other := by
  rw [← String.toList_inj, resourceKey_toList, resourceKey_toList]
  simp [String.toList_inj]

theorem nameKey_inj : fingerprintKey ["n", name] = fingerprintKey ["n", other] ↔ name = other := by
  rw [← String.toList_inj, nameKey_toList, nameKey_toList]
  simp [String.toList_inj]

theorem definitionKey_inj {name' : String} (free : NulFree id) (free' : NulFree other) :
    fingerprintKey ["d", id, name] = fingerprintKey ["d", other, name'] ↔ id = other ∧ name = name' := by
  rw [← String.toList_inj, definitionKey_toList, definitionKey_toList]
  constructor
  · intro equal
    obtain ⟨ids, names⟩ := append_mark_inj free free' (cons.inj (cons.inj equal).2).2
    exact ⟨String.toList_inj.mp ids, String.toList_inj.mp names⟩
  · rintro ⟨rfl, rfl⟩
    rfl

theorem Entry.find?_claims (e : Entry) (key : String) :
    ((e.keys.map fun k => (k, e.node?)).reverse.find? (·.1 == key)).map (·.2) = if key ∈ e.keys then
      some e.node? else none := by
  split_ifs with inside
  · obtain ⟨claim, claimed⟩ :
        ∃ claim, (e.keys.map fun k => (k, e.node?)).reverse.find? (·.1 == key) = some claim := by
      rw [← isSome_iff_exists, find?_isSome]
      exact ⟨(key, e.node?), by simpa using inside, by simp⟩
    have origin := mem_of_find?_eq_some claimed
    simp only [mem_reverse, List.mem_map] at origin
    obtain ⟨_, -, rfl⟩ := origin
    rw [claimed]
    rfl
  · rw [map_eq_none_iff, find?_eq_none]
    intro claim member
    simp only [mem_reverse, List.mem_map] at member
    obtain ⟨k, present, rfl⟩ := member
    intro same
    have equal : k = key := by simpa using same
    exact inside (equal ▸ present)

theorem Table.get?_fingerprint {t : Table} {key : String}
    (answers : ∀ e ∈ t.entries, key ∈ e.keys ↔ test e = true) :
    Entries.get? t.fingerprint key = (t.innermost? test).map (·.node?) := by
  obtain ⟨entries⟩ := t
  rw [fingerprint, Entries.get?_ofList, innermost?]
  dsimp only at answers ⊢
  induction entries with
  | nil => rfl
  | cons e rest ih =>
    have later := ih (forall_mem_cons.mp answers).2
    have here := answers e mem_cons_self
    rw [flatMap_cons, reverse_append, find?_append, reverse_cons, find?_append,
      map_or, map_or, later, e.find?_claims]
    cases passes : test e with
    | true => simp [here, passes]
    | false => simp [here, passes]

namespace Table

variable {t u : Table}

/-- Tables whose fingerprints can be read: the ids of resources are those of their schemas, and the
joining character stands in no id. -/
structure Legible (corpus : Corpus) (t : Table) : Prop where
  tied : ∀ e ∈ t.entries, e.isResource = true →
    ∃ location s, e = .resource s.keywords.id location ∧ corpus.get? location = some s
  free : ∀ e ∈ t.entries, NulFree e.id

theorem Over.legible (covered : t.Over corpus) (free : corpus.NulFree) : t.Legible corpus where
  tied e member := (covered e member).tied
  free e member := free.isId (covered e member).isId

theorem key_resource (e : Entry) : "#" ∈ e.keys ↔ e.isResource = true := by
  unfold Entry.keys Entry.isResource
  cases e.name? with
  | none => simp
  | some name => simp [← String.toList_inj, definitionKey_toList, nameKey_toList]

theorem key_resourceById (e : Entry) (id : String) :
    fingerprintKey ["r", id] ∈ e.keys ↔ (e.isResource && e.id == id) = true := by
  unfold Entry.keys Entry.isResource
  cases e.name? with
  | none =>
    have other : fingerprintKey ["r", id] ≠ "#" := by
      intro equal
      have chars := congrArg String.toList equal
      rw [resourceKey_toList] at chars
      cases chars
    simp only [mem_cons, not_mem_nil, other, resourceKey_inj, isNone_none, Bool.true_and, beq_iff_eq,
      false_or, or_false]
    exact eq_comm
  | some name => simp [← String.toList_inj, resourceKey_toList, definitionKey_toList, nameKey_toList]

theorem key_anyDefinition (e : Entry) (name : String) :
    fingerprintKey ["n", name] ∈ e.keys ↔ (e.name? == some name) = true := by
  unfold Entry.keys
  cases e.name? with
  | none => simp [← String.toList_inj, resourceKey_toList, nameKey_toList]
  | some other =>
    have apart : fingerprintKey ["n", name] ≠ fingerprintKey ["d", e.id, other] := by
      intro equal
      have chars := congrArg String.toList equal
      rw [nameKey_toList, definitionKey_toList] at chars
      cases chars
    simp only [mem_cons, not_mem_nil, apart, nameKey_inj, beq_iff_eq, some.injEq, false_or, or_false]
    exact eq_comm

theorem key_definition (e : Entry) (id name : String) (free : NulFree e.id) (free' : NulFree id) :
    fingerprintKey ["d", id, name] ∈ e.keys ↔ (e.name? == some name && e.id == id) = true := by
  unfold Entry.keys
  cases e.name? with
  | none => simp [← String.toList_inj, resourceKey_toList, definitionKey_toList]
  | some other =>
    have apart : fingerprintKey ["d", id, name] ≠ fingerprintKey ["n", other] := by
      intro equal
      have chars := congrArg String.toList equal
      rw [nameKey_toList, definitionKey_toList] at chars
      cases chars
    simp only [mem_cons, not_mem_nil, apart, definitionKey_inj free' free, or_false, Bool.and_eq_true,
      beq_iff_eq, some.injEq]
    exact ⟨fun ⟨ids, names⟩ => ⟨names.symm, ids.symm⟩, fun ⟨names, ids⟩ => ⟨ids.symm, names.symm⟩⟩

structure Agree (t u : Table) : Prop where
  resource : t.resource? = u.resource?
  resourceById : ∀ id, t.resourceById? id = u.resourceById? id
  definition : ∀ id name, t.definition? id name = u.definition? id name
  anyDefinition : ∀ name, (t.anyDefinition? name).map (·.node?) = (u.anyDefinition? name).map (·.node?)

theorem Legible.resource_unique (first : t.Legible corpus) (second : u.Legible corpus) {e x : Entry}
    (member : e ∈ t.entries) (resource : e.isResource = true) (member' : x ∈ u.entries)
    (resource' : x.isResource = true) (same : e.node? = x.node?) : e = x := by
  obtain ⟨location, s, rfl, present⟩ := first.tied e member resource
  obtain ⟨location', s', rfl, present'⟩ := second.tied x member' resource'
  obtain rfl : location = location' := some.inj same
  rw [present] at present'
  rw [some.inj present']

theorem Legible.resources_agree (first : t.Legible corpus) (second : u.Legible corpus)
    (resources : ∀ e, test e = true → e.isResource = true)
    (same : (t.innermost? test).map (·.node?) = (u.innermost? test).map (·.node?)) :
    t.innermost? test = u.innermost? test := by
  cases found : t.innermost? test with
  | none =>
    rw [found] at same
    exact (map_eq_none_iff.mp same.symm).symm
  | some e =>
    rw [found] at same
    obtain ⟨x, found', nodes⟩ := map_eq_some_iff.mp same.symm
    rw [found', first.resource_unique second (innermost?_mem found) (resources e (innermost?_test found))
      (innermost?_mem found') (resources x (innermost?_test found')) nodes.symm]

theorem Legible.definitions_agree (first : t.Legible corpus) (second : u.Legible corpus)
    (equal : t.fingerprint = u.fingerprint) (id name : String) :
    t.definition? id name = u.definition? id name := by
  by_cases free : NulFree id
  · have same : (t.definition? id name).map (·.node?) = (u.definition? id name).map (·.node?) := by
      rw [definition?, definition?,
        ← get?_fingerprint fun e member => key_definition e id name (first.free e member) free,
        ← get?_fingerprint fun e member => key_definition e id name (second.free e member) free, equal]
    cases found : t.definition? id name with
    | none =>
      rw [found] at same
      exact (map_eq_none_iff.mp same.symm).symm
    | some e =>
      rw [found] at same
      obtain ⟨x, found', nodes⟩ := map_eq_some_iff.mp same.symm
      obtain ⟨names, ids⟩ := definition?_test found
      obtain ⟨names', ids'⟩ := definition?_test found'
      rw [found']
      exact congrArg some (by cases e; cases x; simp_all)
  · have nowhere : ∀ v : Table, v.Legible corpus → v.definition? id name = none := by
      intro v legible
      rw [eq_none_iff_forall_ne_some]
      intro e found
      exact free ((definition?_test found).2 ▸ legible.free e (innermost?_mem found))
    rw [nowhere t first, nowhere u second]

theorem Legible.agree (first : t.Legible corpus) (second : u.Legible corpus)
    (equal : t.fingerprint = u.fingerprint) : t.Agree u where
  resource := by
    apply first.resources_agree second (fun e test => test)
    rw [← get?_fingerprint fun e _ => key_resource e, ← get?_fingerprint fun e _ => key_resource e, equal]
  resourceById id := by
    apply first.resources_agree second (fun e test => (Bool.and_eq_true _ _ ▸ test).1)
    rw [← get?_fingerprint fun e _ => key_resourceById e id, ← get?_fingerprint fun e _ =>
      key_resourceById e id, equal]
  definition := first.definitions_agree second equal
  anyDefinition name := by
    rw [anyDefinition?, anyDefinition?, ← get?_fingerprint fun e _ => key_anyDefinition e name,
      ← get?_fingerprint fun e _ => key_anyDefinition e name, equal]

theorem Agree.fragment (agree : t.Agree u) (r : Entry) (fragment : List Char) :
    t.fragment? corpus r fragment = u.fragment? corpus r fragment := by
  have pointed : t.pointedDefinition? r.id fragment = u.pointedDefinition? r.id fragment := by
    simp only [pointedDefinition?, agree.definition]
  unfold fragment?
  split
  · rfl
  · rw [pointed]
  · rw [agree.definition]

theorem Agree.resolve (agree : t.Agree u) (key : String) :
    (t.resolve corpus key).map (·.1) = (u.resolve corpus key).map (·.1) := by
  unfold Table.resolve
  dsimp only
  split
  · split_ifs with bare
    · rw [agree.resource, Option.map_map, Option.map_map]
      rfl
    · rw [agree.resourceById]
      split
      · rfl
      · rw [Option.map_map, Option.map_map]
        exact agree.anyDefinition _
  · split_ifs with bare
    · rw [agree.resource]
      cases u.resource? with
      | none => rfl
      | some r =>
        simp only [bind_eq_bind, bind_some, agree.fragment]
        cases u.fragment? corpus r _ <;> rfl
    · rw [agree.resourceById]
      cases u.resourceById? _ with
      | none => rfl
      | some r =>
        simp only [bind_eq_bind, bind_some, agree.fragment]
        cases u.fragment? corpus r _ <;> rfl

end Table

end JsonShape
