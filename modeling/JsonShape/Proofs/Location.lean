import JsonShape.Proofs.Entries
import JsonShape.Schema.Location

/-! Laws of places in schemas. Where each map of a schema has a name once, the places that a walk
visits are those that steps lead to. -/
namespace JsonShape
open List Option Entries

variable {place : List Step × Schema}

structure Keywords.Ordered {α : Type} (k : Keywords α) : Prop where
  properties : Ascending (k.properties?.getD [])
  defs : Ascending (k.defs?.getD [])
  definitions : Ascending (k.definitions?.getD [])

instance {α : Type} (entries : List (String × α)) : Decidable (Ascending entries) :=
  inferInstanceAs (Decidable (entries.Pairwise fun a b => a.1 < b.1))

instance {α : Type} (k : Keywords α) : Decidable k.Ordered :=
  decidable_of_iff
    (Ascending (k.properties?.getD []) ∧ Ascending (k.defs?.getD []) ∧ Ascending (k.definitions?.getD []))
    ⟨fun each => ⟨each.1, each.2.1, each.2.2⟩, fun ordered =>
    ⟨ordered.properties, ordered.defs, ordered.definitions⟩⟩

def Corpus.Ordered (corpus : Corpus) : Prop :=
  ∀ location s, corpus.get? location = some s → s.keywords.Ordered

namespace Schema

variable {c : Step × Schema} {s : Schema} {entries? : Option (List (String × Option Schema))}
  {name : String} {step : Step} {index : Nat}

theorem at?_nil (s : Schema) : s.at? [] = some s := rfl

theorem at?_cons (s : Schema) (step : Step) (steps : List Step) :
    s.at? (step :: steps) = (s.child? step).bind (·.at? steps) := rfl

theorem at?_append (s : Schema) (steps more : List Step) :
    s.at? (steps ++ more) = (s.at? steps).bind (·.at? more) := by
  induction steps generalizing s with
  | nil => rfl
  | cons step steps ih =>
    rw [cons_append, at?_cons, at?_cons]
    cases s.child? step with
    | none => rfl
    | some c => exact ih c

theorem mem_namedChildren {step : String → Step} :
    c ∈ namedChildren step entries? ↔ ∃ name, (name, some c.2) ∈ entries?.getD [] ∧ c.1 = step name := by
  obtain ⟨way, s⟩ := c
  simp only [namedChildren, mem_filterMap, Prod.exists]
  constructor
  · rintro ⟨name, s?, inside, found⟩
    obtain ⟨s', rfl, equal⟩ := map_eq_some_iff.mp found
    obtain ⟨rfl, rfl⟩ := Prod.mk.inj equal
    exact ⟨name, inside, rfl⟩
  · rintro ⟨name, inside, rfl⟩
    exact ⟨name, some s, inside, rfl⟩

theorem mem_listedChildren {step : Nat → Step} {entries? : Option (List (Option Schema))} :
    c ∈ listedChildren step entries? ↔ ∃ index, (entries?.getD [])[index]? = some (some c.2) ∧
      c.1 = step index := by
  obtain ⟨way, s⟩ := c
  simp only [listedChildren, mem_filterMap, Prod.exists, mem_zipIdx_iff_getElem?]
  constructor
  · rintro ⟨s?, index, inside, found⟩
    obtain ⟨s', rfl, equal⟩ := map_eq_some_iff.mp found
    obtain ⟨rfl, rfl⟩ := Prod.mk.inj equal
    exact ⟨index, inside, rfl⟩
  · rintro ⟨index, inside, rfl⟩
    exact ⟨some s, index, inside, rfl⟩

theorem mem_oneChild {s? : Option Schema} : c ∈ oneChild step s? ↔ s? = some c.2 ∧ c.1 = step := by
  obtain ⟨way, s⟩ := c
  cases s? <;> simp [oneChild, eq_comm, and_comm]

theorem named_found (ascending : Ascending (entries?.getD []))
    (member : (name, some s) ∈ entries?.getD []) : (entries?.bind (get? · name)).join = some s := by
  cases entries? with
  | none => cases member
  | some entries =>
    have found := get?_eq_some_of_mem ascending member
    simp only [getD_some] at found
    rw [bind_some, found, join_some]

theorem listed_found {entries? : Option (List (Option Schema))}
    (found : (entries?.getD [])[index]? = some (some s)) : (entries?.bind (·[index]?)).join = some s := by
  cases entries? with
  | none => cases found
  | some entries =>
    simp only [getD_some] at found
    rw [bind_some, found, join_some]

theorem child?_of_mem_children (ordered : s.keywords.Ordered) (member : c ∈ s.children) :
    s.child? c.1 = some c.2 := by
  simp only [children, mem_append, mem_namedChildren, mem_listedChildren, mem_oneChild] at member
  obtain ⟨way, t⟩ := c
  rcases member with ⟨name, inside, rfl⟩ | ⟨found, rfl⟩ | ⟨found, rfl⟩ | ⟨name, inside, rfl⟩ |
    ⟨name, inside, rfl⟩ |
    ⟨index, inside, rfl⟩ | ⟨index, inside, rfl⟩ | ⟨index, inside, rfl⟩
  · exact named_found ordered.properties inside
  · exact found
  · exact found
  · exact named_found ordered.defs inside
  · exact named_found ordered.definitions inside
  · exact listed_found inside
  · exact listed_found inside
  · exact listed_found inside

theorem named_mem (found : (entries?.bind (get? · name)).join = some s) :
    (name, some s) ∈ entries?.getD [] := by
  cases entries? with
  | none => cases found
  | some entries =>
    rw [bind_some, join_eq_some_iff] at found
    exact mem_of_get?_eq_some found

theorem listed_mem {entries? : Option (List (Option Schema))}
    (found : (entries?.bind (·[index]?)).join = some s) : (entries?.getD [])[index]? = some (some s) := by
  cases entries? with
  | none => cases found
  | some entries =>
    rw [bind_some, join_eq_some_iff] at found
    exact found

theorem mem_children_of_child? {c : Schema} (found : s.child? step = some c) : (step, c) ∈ s.children := by
  simp only [children, mem_append, mem_namedChildren, mem_listedChildren, mem_oneChild]
  cases step with
  | property name => exact .inl ⟨name, named_mem found, rfl⟩
  | additionalProperties => exact .inr (.inl ⟨found, rfl⟩)
  | items => exact .inr (.inr (.inl ⟨found, rfl⟩))
  | defs name => exact .inr (.inr (.inr (.inl ⟨name, named_mem found, rfl⟩)))
  | definitions name => exact .inr (.inr (.inr (.inr (.inl ⟨name, named_mem found, rfl⟩))))
  | anyOf index => exact .inr (.inr (.inr (.inr (.inr (.inl ⟨index, listed_mem found, rfl⟩)))))
  | oneOf index => exact .inr (.inr (.inr (.inr (.inr (.inr (.inl ⟨index, listed_mem found, rfl⟩))))))
  | allOf index => exact .inr (.inr (.inr (.inr (.inr (.inr (.inr ⟨index, listed_mem found, rfl⟩))))))

def Everywhere (P : Schema → Prop) (s : Schema) : Prop := ∀ steps t, s.at? steps = some t → P t

theorem everywhere_of_children {P : Schema → Prop} (here : P s)
    (below : ∀ c ∈ s.children, c.2.Everywhere P) : s.Everywhere P := by
  intro steps t reached
  cases steps with
  | nil => exact some.inj reached ▸ here
  | cons step steps =>
    rw [at?_cons] at reached
    obtain ⟨c, found, rest⟩ := bind_eq_some_iff.mp reached
    exact below (step, c) (mem_children_of_child? found) steps t rest

theorem mem_walkFrom_iff {enters : List Step → Schema → Bool} {start : List Step} :
    place ∈ walkFrom enters start s ↔ place = (start, s) ∨ enters start s = true ∧ ∃ c ∈ s.children,
      place ∈ walkFrom enters (start ++ [c.1]) c.2 := by
  rw [walkFrom]
  split_ifs with entered
  · simp [entered]
  · simp [entered]

theorem at?_of_mem_walkFrom {enters : List Step → Schema → Bool} (s : Schema) (start : List Step)
    (ordered : ∀ steps t, s.at? steps = some t → t.keywords.Ordered) {place : List Step × Schema}
    (member : place ∈ walkFrom enters start s) :
    ∃ steps, place.1 = start ++ steps ∧ s.at? steps = some place.2 := by
  rcases mem_walkFrom_iff.mp member with rfl | ⟨-, c, child, inside⟩
  · exact ⟨[], (append_nil start).symm, at?_nil s⟩
  · have found := child?_of_mem_children (ordered [] s (at?_nil s)) child
    have below : ∀ steps t, c.2.at? steps = some t → t.keywords.Ordered := by
      intro steps t reached
      apply ordered (c.1 :: steps) t
      rw [at?_cons, found]
      exact reached
    obtain ⟨steps, equal, reached⟩ := at?_of_mem_walkFrom c.2 (start ++ [c.1]) below inside
    refine ⟨c.1 :: steps, by rw [equal, append_assoc, singleton_append], ?_⟩
    rw [at?_cons, found]
    exact reached
termination_by sizeOf s
decreasing_by exact sizeOf_lt_of_mem_children child

theorem mem_walkFrom_of_at? {t : Schema} {steps : List Step} (start : List Step)
    (reached : s.at? steps = some t) :
    (start ++ steps, t) ∈ walkFrom (fun _ _ => true) start s := by
  induction steps generalizing s start with
  | nil =>
    obtain rfl := some.inj reached
    rw [append_nil, mem_walkFrom_iff]
    exact .inl rfl
  | cons step steps ih =>
    rw [at?_cons] at reached
    obtain ⟨c, found, rest⟩ := bind_eq_some_iff.mp reached
    have inside := ih (start ++ [step]) rest
    rw [append_assoc, singleton_append] at inside
    exact mem_walkFrom_iff.mpr (.inr ⟨rfl, (step, c), mem_children_of_child? found, inside⟩)

end Schema

namespace Corpus

variable {corpus : Corpus} {s : Schema} {location : Location}

theorem get?_child (corpus : Corpus) (location : Location) (step : Step) :
    corpus.get? (location.child step) = (corpus.get? location).bind (·.child? step) := by
  rw [get?, get?, Location.child]
  cases corpus[location.document]? with
  | none => rfl
  | some s =>
    rw [bind_some, bind_some, Schema.at?_append]
    congr 1
    funext t
    rw [Schema.at?_cons]
    cases t.child? step <;> rfl

theorem get?_of_mem_walk (ordered : corpus.Ordered) {document : Nat}
    (present : corpus[document]? = some s) (member : place ∈ s.walk) :
    corpus.get? ⟨document, place.1⟩ = some place.2 := by
  have below : ∀ steps t, s.at? steps = some t → t.keywords.Ordered := by
    intro steps t reached
    apply ordered ⟨document, steps⟩ t
    rw [get?, present]
    exact reached
  obtain ⟨steps, equal, reached⟩ := Schema.at?_of_mem_walkFrom s [] below member
  rw [equal, get?, present]
  exact reached

theorem mem_walk_of_get? (present : corpus.get? location = some s) :
    (location.steps, s) ∈ corpus.toList.flatMap (·.walk) := by
  obtain ⟨document, found, reached⟩ := bind_eq_some_iff.mp present
  refine mem_flatMap.mpr ⟨document, (Array.mem_of_getElem? found).val, ?_⟩
  exact Schema.mem_walkFrom_of_at? [] reached

def places (corpus : Corpus) : List (Location × Schema) :=
  corpus.toList.zipIdx.flatMap fun (s, document) => s.walk.map fun (steps, s) => (⟨document, steps⟩, s)

theorem mem_places (present : corpus.get? location = some s) : (location, s) ∈ corpus.places := by
  obtain ⟨root, found, reached⟩ := bind_eq_some_iff.mp present
  have walked : (location.steps, s) ∈ root.walk := Schema.mem_walkFrom_of_at? [] reached
  refine mem_flatMap.mpr ⟨(root, location.document), ?_, mem_map.mpr ⟨_, walked, rfl⟩⟩
  rw [mem_zipIdx_iff_getElem?]
  simpa using found

theorem Ordered.of_places (each : ∀ place ∈ corpus.places, place.2.keywords.Ordered) : corpus.Ordered :=
  fun _ _ present => each _ (mem_places present)

end Corpus

end JsonShape
