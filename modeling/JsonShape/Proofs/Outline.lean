import JsonShape.Proofs.Decoding
import JsonShape.Proofs.Ledger
import JsonShape.Proofs.Strictness

/-! Outlines of derivations. Which schemas a derivation visits and what it tells does not depend on
the shapes that it builds: its outline is that of a tour through the events of the schemas. -/
namespace JsonShape
open List

def Path.step (p : Path) : Step → Path
  | .property name => (p.field "properties").field name
  | .additionalProperties => p.field "additionalProperties"
  | .items => p.field "items"
  | .defs name => (p.field "$defs").field name
  | .definitions name => (p.field "definitions").field name
  | .anyOf index => (p.field "anyOf").index index
  | .oneOf index => (p.field "oneOf").index index
  | .allOf index => (p.field "allOf").index index

namespace Derivation

inductive Event where
  | visit (location? : Option Location) (table : Table) (path : Path)
  | malformed (path : Path) (message : String)
  | unresolved (path : Path) (key : String) (table : Table)
  deriving DecidableEq

namespace Event

section Rules

variable (corpus : Corpus) (location : Location) (table : Table) (path : Path)

def ofEach (step : Nat → Step) (path : Path) (list : List (Option Schema)) : List Event :=
  list.zipIdx.map fun (s?, i) => visit (s?.map fun _ => location.child (step i)) table (path.index i)

def ofItems (k : Keywords Schema) : List Event :=
  match k.items? with
  | none => []
  | some items =>
    match if isBareOneOf items.keywords then items.keywords.oneOf? else none with
    | some alternatives =>
      ofEach (location.child .items) (table.enter corpus (location.child .items)) .oneOf
        ((path.field "items").field "oneOf") alternatives
    | none => [visit (some (location.child .items)) table (path.field "items")]

def ofExtra (k : Keywords Schema) : List Event :=
  match k.additionalProperties? with
  | none => []
  | some s =>
    if s.keywords.boolean?.isSome then []
    else [visit (some (location.child .additionalProperties)) table (path.field "additionalProperties")]

def ofProperties (entries : List (String × Option Schema)) : List Event :=
  entries.map fun (name, s?) => visit (s?.map fun _ => location.child (.property name)) table
    ((path.field "properties").field name)

def ofCombined (k : Keywords Schema) : List Event :=
  ofEach location table .allOf (path.field "allOf") (k.allOf?.getD []) ++ ofEach location table
    .oneOf (path.field "oneOf") (k.oneOf?.getD [])

def undeclared? (names : List String) (branches : List (Option Schema × Nat)) : Option (Nat × String) :=
  branches.findSome? fun (s?, i) =>
    (((s?.bind (·.keywords.required?)).getD []).find? fun name => !names.contains name).map (i, ·)

def complaint? (k : Keywords Schema) : Option Event :=
  match k.properties? with
  | none =>
    if k.anyOf?.isSome then some (malformed (path.field "anyOf") "anyOf on an object without properties")
    else none
  | some entries =>
    (k.anyOf?.bind fun branches => undeclared? (entries.map (·.1)) branches.zipIdx).map fun (i, name) =>
      malformed ((path.field "anyOf").index i)
        ("anyOf branch requires undeclared property " ++ Text.Quoted.quote name)

def ofObject (k : Keywords Schema) : List Event :=
  ofExtra location table path k ++ ofProperties location table path (k.properties?.getD []) ++
    match complaint? path k with
    | some event => [event]
    | none => ofCombined location table path k

def ofType (k : Keywords Schema) (name : String) : List Event :=
  match name with
  | "object" => ofObject location table path k
  | "array" => ofItems corpus location table path k
  | _ => []

def ofSchema (k : Keywords Schema) : List Event :=
  if k.boolean?.isSome then []
  else if k.ref != "" then
    match table.resolve corpus k.ref with
    | some (target?, table) => [visit target? table (refPath k.ref)]
    | none => [unresolved path k.ref table]
  else if k.const?.isSome || k.enum?.isSome then []
  else
    match k.type with
    | .one name => ofType corpus location table path k name
    | .list names => names.flatMap (ofType corpus location table path k)
    | .absent =>
      match k.anyOf?, k.allOf?, k.oneOf? with
      | some list, _, _ => ofEach location table .anyOf (path.field "anyOf") list
      | none, some list, _ => ofEach location table .allOf (path.field "allOf") list
      | none, none, some list => ofEach location table .oneOf (path.field "oneOf") list
      | none, none, none => []

end Rules

section Kinds

variable (corpus : Corpus) (location : Location) (table : Table) (path : Path) (k : Keywords Schema)

/-- The ways on which subschemas are visited: definitions are not visited where they stand. -/
def Way : Step → Prop
  | .property name => ∃ s?, (name, s?) ∈ k.properties?.getD []
  | .defs _ => False
  | .definitions _ => False
  | _ => True

/-- The kinds of events at a schema. Alternatives of items are visited through the table of the
items. -/
inductive Arises : Event → Prop
  | reference {target? : Option Location} {u : Table} (refers : k.ref ≠ "")
      (resolved : table.resolve corpus k.ref = some (target?, u)) :
    Arises (visit target? u (refPath k.ref))
  | lost (other : k.boolean? = none) (refers : k.ref ≠ "")
      (nowhere : table.resolve corpus k.ref = none) : Arises (unresolved path k.ref table)
  | child (step : Step) (way : Way k step) (s? : Option Schema) :
      Arises (visit (s?.map fun _ => location.child step) table (path.step step))
  | item (index : Nat) (s? : Option Schema) :
    Arises (visit (s?.map fun _ => (location.child .items).child (.oneOf index))
    (table.enter corpus (location.child .items))
      ((path.step .items).step (.oneOf index)))
  | malformed (p : Path) (message : String) : Arises (malformed p message)

variable {corpus location table path k} {e : Event}

theorem mem_ofEach {step : Nat → Step} {list : List (Option Schema)}
    (member : e ∈ ofEach location table step path list) :
    ∃ (s? : Option Schema) (i : Nat), e = visit (s?.map fun _ => location.child (step i)) table
      (path.index i) := by
  obtain ⟨⟨s?, i⟩, -, rfl⟩ := mem_map.mp member
  exact ⟨s?, i, rfl⟩

theorem mem_ofItems (member : e ∈ ofItems corpus location table path k) :
    Arises corpus location table path k e := by
  unfold ofItems at member
  cases items : k.items? with
  | none => simp [items] at member
  | some s =>
    simp only [items] at member
    cases alternatives : (if isBareOneOf s.keywords then s.keywords.oneOf? else none) with
    | none =>
      simp only [alternatives, mem_singleton] at member
      exact member ▸ .child .items trivial (some s)
    | some list =>
      simp only [alternatives] at member
      obtain ⟨s?, i, rfl⟩ := mem_ofEach member
      exact .item i s?

theorem mem_ofObject (member : e ∈ ofObject location table path k) :
    Arises corpus location table path k e := by
  rcases mem_append.mp member with member | member
  · rcases mem_append.mp member with member | member
    · unfold ofExtra at member
      cases extra : k.additionalProperties? with
      | none => simp [extra] at member
      | some s =>
        simp only [extra] at member
        split_ifs at member
        · cases member
        · exact mem_singleton.mp member ▸ .child .additionalProperties trivial (some s)
    · obtain ⟨⟨name, s?⟩, listed, rfl⟩ := mem_map.mp member
      exact .child (.property name) ⟨s?, listed⟩ s?
  · unfold complaint? at member
    split at member
    · rename_i event told
      obtain rfl := mem_singleton.mp member
      cases properties : k.properties? with
      | none =>
        simp only [properties] at told
        split_ifs at told
        · cases told
          exact .malformed _ _
      | some entries =>
        simp only [properties, Option.map_eq_some_iff] at told
        obtain ⟨_, -, rfl⟩ := told
        exact .malformed _ _
    · rcases mem_append.mp member with member | member
      · obtain ⟨s?, i, rfl⟩ := mem_ofEach member
        exact .child (.allOf i) trivial s?
      · obtain ⟨s?, i, rfl⟩ := mem_ofEach member
        exact .child (.oneOf i) trivial s?

theorem mem_ofType {name : String} (member : e ∈ ofType corpus location table path k name) :
    Arises corpus location table path k e := by
  unfold ofType at member
  split at member
  · exact mem_ofObject member
  · exact mem_ofItems member
  · cases member

theorem mem_ofSchema (member : e ∈ ofSchema corpus location table path k) :
    Arises corpus location table path k e := by
  unfold ofSchema at member
  cases boolean : k.boolean? with
  | some b => simp [boolean] at member
  | none =>
    simp only [boolean, Option.isSome_none, Bool.false_eq_true, if_false] at member
    split_ifs at member with refers
    · have refers : k.ref ≠ "" := by simpa using refers
      cases resolved : table.resolve corpus k.ref with
      | none =>
        simp only [resolved, mem_singleton] at member
        exact member ▸ .lost boolean refers resolved
      | some found =>
        simp only [resolved, mem_singleton] at member
        exact member ▸ .reference refers resolved
    · cases member
    · cases type : k.type with
      | one name =>
        simp only [type] at member
        exact mem_ofType member
      | list names =>
        simp only [type, mem_flatMap] at member
        obtain ⟨name, -, member⟩ := member
        exact mem_ofType member
      | absent =>
        simp only [type] at member
        split at member
        · obtain ⟨s?, i, rfl⟩ := mem_ofEach member
          exact .child (.anyOf i) trivial s?
        · obtain ⟨s?, i, rfl⟩ := mem_ofEach member
          exact .child (.allOf i) trivial s?
        · obtain ⟨s?, i, rfl⟩ := mem_ofEach member
          exact .child (.oneOf i) trivial s?
        · cases member

theorem visit_cases {next : Location} {v : Table} {way : Path}
    (member : visit (some next) v way ∈ ofSchema corpus location table path k) :
    (k.ref ≠ "" ∧ table.resolve corpus k.ref = some (some next, v) ∧ way = refPath k.ref) ∨
      (∃ step, Way k step ∧ next = location.child step ∧ v = table ∧ way = path.step step) ∨
      ∃ index, next = (location.child .items).child (.oneOf index) ∧ v = table.enter corpus
      (location.child .items) ∧ way = (path.step .items).step (.oneOf index) := by
  generalize equal : visit (some next) v way = e at member
  cases mem_ofSchema member with
  | reference refers resolved =>
    obtain ⟨rfl, rfl, rfl⟩ := visit.inj equal
    exact .inl ⟨refers, resolved, rfl⟩
  | child step within s? =>
    obtain ⟨target, rfl, rfl⟩ := visit.inj equal
    obtain ⟨-, -, rfl⟩ := Option.map_eq_some_iff.mp target.symm
    exact .inr (.inl ⟨_, within, rfl, rfl, rfl⟩)
  | item index s? =>
    obtain ⟨target, rfl, rfl⟩ := visit.inj equal
    obtain ⟨-, -, rfl⟩ := Option.map_eq_some_iff.mp target.symm
    exact .inr (.inr ⟨index, rfl, rfl, rfl⟩)
  | lost => cases equal
  | malformed => cases equal

theorem ofSchema_lost (other : k.boolean? = none) (refers : k.ref ≠ "")
    (nowhere : table.resolve corpus k.ref = none) :
    ofSchema corpus location table path k = [unresolved path k.ref table] := by
  unfold ofSchema
  simp [other, refers, nowhere]

end Kinds

end Event

structure Outline where
  issues : List Issue
  warnings : List String
  reported : List String
  opened : List Key
  known : List Key
  stopped : Bool
  whole : Bool

def State.outline (st : State) : Outline :=
  ⟨st.issues, st.warnings, st.reported, st.stack.map (·.key), st.memo.map (·.key), st.stopped, true⟩

namespace Outline

def unresolvedIssue (path : Path) (key : String) (table : Table) : Issue :=
  { Issue.atPath (path.field "$ref") .unresolvedRef ("cannot resolve $ref " ++ Text.Quoted.quote key)
      [("ref", .string key), ("document", .string table.scope)] with hint := key }

def report (options : Options) (issue : Issue) (o : Outline) : Outline :=
  if mark issue.code issue.path issue.hint ∈ o.reported then o
  else
    { o with
      reported := mark issue.code issue.path issue.hint :: o.reported
      issues := o.issues ++ [issue]
      stopped := o.stopped || options.failFast }

/-- Goes through an event, given what visiting a schema does. -/
def follow (options : Options) (visit : Option Location → Table → Path → Outline → Outline)
    (o : Outline) : Event → Outline
  | .visit location? table path => visit location? table path o
  | .malformed path message =>
    if options.strict then report options (.atPath path .unsupportedCombinator message []) o
    else { o with warnings := o.warnings ++ [path.pointer ++ ": " ++ message] }
  | .unresolved path key table => report options (unresolvedIssue path key table) o

def within (options : Options) (visit : Option Location → Table → Path → Outline → Outline)
    (key : Key) (events : List Event) (o : Outline) : Outline :=
  let o := events.foldl (follow options visit) { o with opened := key :: o.opened }
  { o with opened := o.opened.drop 1, known := key :: o.known }

end Outline

/-- The outline after a schema is visited. -/
def tour (corpus : Corpus) (options : Options) : Nat → Option Location → Table → Path → Outline → Outline
  | 0, _, _, _, o => { o with whole := false }
  | budget + 1, location?, t, path, o =>
    match location?.bind fun location => (corpus.get? location).map (location, ·) with
    | none => o
    | some (location, s) =>
      if o.stopped || o.opened.contains (keyOf s location t) ||
        o.known.contains (keyOf s location t) then o
      else
        o.within options (tour corpus options budget) (keyOf s location t)
          (Event.ofSchema corpus location (t.enterSchema s.keywords location t.scope) path s.keywords)

variable {corpus : Corpus} {options : Options} {location? : Option Location} {location : Location}
  {s : Schema} {t : Table} {path : Path} {o : Outline}

theorem tour_absent (absent : location?.bind corpus.get? = none) (budget : Nat) :
    tour corpus options (budget + 1) location? t path o = o := by
  have nothing : (location?.bind fun location => (corpus.get? location).map (location, ·)) = none := by
    cases location? with
    | none => rfl
    | some location => simpa using absent
  rw [tour, nothing]

theorem tour_met (present : corpus.get? location = some s)
    (met : o.stopped = true ∨ keyOf s location t ∈ o.opened ∨ keyOf s location t ∈ o.known)
    (budget : Nat) : tour corpus options (budget + 1) (some location) t path o = o := by
  rw [tour, Option.bind_some, present, Option.map_some]
  exact if_pos (by simpa [or_assoc] using met)

theorem tour_stopped (stopped : o.stopped = true) (budget : Nat) :
    tour corpus options (budget + 1) location? t path o = o := by
  cases found : location?.bind corpus.get? with
  | none => exact tour_absent found budget
  | some s =>
    obtain ⟨location, rfl, present⟩ := Option.bind_eq_some_iff.mp found
    exact tour_met present (.inl stopped) budget

theorem tour_new (present : corpus.get? location = some s) (going : o.stopped = false)
    (closed : keyOf s location t ∉ o.opened) (unknown : keyOf s location t ∉ o.known)
    (budget : Nat) :
    tour corpus options (budget + 1) (some location) t path o = o.within options
      (tour corpus options budget) (keyOf s location t)
      (Event.ofSchema corpus location (t.enterSchema s.keywords location t.scope) path
      s.keywords) := by
  rw [tour, Option.bind_some, present, Option.map_some]
  exact if_neg (by simp [going, closed, unknown])

/-- What holds between the outlines before and after every step of a tour. -/
structure Stepwise (options : Options) (R : Outline → Outline → Prop) : Prop where
  refl : ∀ o, R o o
  trans : ∀ {o o' o''}, R o o' → R o' o'' → R o o''
  report : ∀ o issue, issue.code = .unresolvedRef ∨ issue.code = .unsupportedCombinator ∧
      issue.hint = "" → R o (o.report options issue)
  warn : ∀ o texts, R o { o with warnings := texts }
  cut : ∀ o, R o { o with whole := false }
  close : ∀ o key o', R { o with opened := key :: o.opened } o' →
      R o { o' with opened := o'.opened.drop 1, known := key :: o'.known }

namespace Stepwise

variable {R : Outline → Outline → Prop} {visit : Option Location → Table → Path → Outline → Outline}

theorem follow (stepwise : Stepwise options R)
    (visits : ∀ location? t path o, R o (visit location? t path o)) (o : Outline) (e : Event) :
    R o (o.follow options visit e) := by
  cases e with
  | visit location? t path => exact visits location? t path o
  | malformed path message =>
    unfold Outline.follow
    split_ifs
    · exact stepwise.report _ _ (.inr ⟨rfl, rfl⟩)
    · exact stepwise.warn _ _
  | unresolved path key t => exact stepwise.report _ _ (.inl rfl)

theorem foldl (stepwise : Stepwise options R)
    (visits : ∀ location? t path o, R o (visit location? t path o)) (events : List Event)
    (o : Outline) : R o (events.foldl (Outline.follow options visit) o) := by
  induction events generalizing o with
  | nil => exact stepwise.refl o
  | cons e rest ih => exact stepwise.trans (stepwise.follow visits o e) (ih _)

theorem tour (stepwise : Stepwise options R) (budget : Nat) (location? : Option Location)
    (t : Table) (path : Path) (o : Outline) :
    R o (tour corpus options budget location? t path o) := by
  induction budget generalizing location? t path o with
  | zero => exact stepwise.cut o
  | succ budget ih =>
    cases found : location?.bind corpus.get? with
    | none =>
      rw [tour_absent found]
      exact stepwise.refl o
    | some s =>
      obtain ⟨location, rfl, present⟩ := Option.bind_eq_some_iff.mp found
      by_cases met : o.stopped = true ∨ keyOf s location t ∈ o.opened ∨ keyOf s location t ∈ o.known
      · rw [tour_met present met]
        exact stepwise.refl o
      · push Not at met
        rw [tour_new present (by simpa using met.1) met.2.1 met.2.2]
        exact stepwise.close _ _ _ (stepwise.foldl ih _ _)

end Stepwise

def Follows {α : Type} (options : Options)
    (visit : Option Location → Table → Path → Outline → Outline) (events : List Event)
    (f : Derive α) (good : α → Prop) : Prop :=
  ∀ st a st', f st = .ok (a, st') → st'.outline = events.foldl (Outline.follow options visit)
    st.outline ∧ good a

namespace Follows

variable {α β ι : Type} {visit : Option Location → Table → Path → Outline → Outline}
  {events more : List Event} {good : α → Prop} {fine : β → Prop}

theorem pure {a : α} (holds : good a) : Follows options visit [] (Pure.pure a) good := by
  intro st b st' ran
  cases ran
  exact ⟨rfl, holds⟩

theorem bind {f : Derive α} {next : α → Derive β} (first : Follows options visit events f good)
    (second : ∀ a, good a → Follows options visit more (next a) fine) :
    Follows options visit (events ++ more) (f >>= next) fine := by
  intro st b st' ran
  obtain ⟨a, st₁, here, later⟩ := bind_run ran
  obtain ⟨outline, holds⟩ := first st a st₁ here
  obtain ⟨outline', holds'⟩ := second a holds st₁ b st' later
  exact ⟨by rw [outline', outline, foldl_append], holds'⟩

theorem silent_bind {f : Derive α} {next : α → Derive β} (first : Follows options visit [] f good)
    (second : ∀ a, good a → Follows options visit events (next a) fine) :
    Follows options visit events (f >>= next) fine :=
  bind first second

theorem bind_silent {f : Derive α} {next : α → Derive β}
    (first : Follows options visit events f good)
    (second : ∀ a, good a → Follows options visit [] (next a) fine) :
    Follows options visit events (f >>= next) fine := by
  rw [← append_nil events]
  exact bind first second

theorem mapM {f : ι → Derive α} {eventsOf : ι → List Event} {good : ι → α → Prop} {items : List ι}
    (each : ∀ i ∈ items, Follows options visit (eventsOf i) (f i) (good i)) :
    Follows options visit (items.flatMap eventsOf) (items.mapM f) (Forall₂ good items) := by
  induction items with
  | nil => exact pure .nil
  | cons i rest ih =>
    rw [mapM_cons, flatMap_cons]
    refine bind (each i mem_cons_self) fun a here => ?_
    refine bind_silent (ih (forall_mem_cons.mp each).2) fun as later => ?_
    exact pure (.cons here later)

theorem draw (f : Fresh α) : Follows options visit [] (Derivation.draw f) fun _ => True := by
  intro st a st' ran
  rw [draw_eq] at ran
  cases drawn : f st.graph.next with
  | error e =>
    rw [drawn] at ran
    cases ran
  | ok result =>
    rw [drawn] at ran
    cases ran
    exact ⟨rfl, trivial⟩

end Follows

variable {visit : Option Location → Table → Path → Outline → Outline} {recur : Recur}
  {table : Table} {depth : Nat} {k : Keywords Schema} {props : List (Property Shape)}
  {names : List String}

def RecurFollows (options : Options) (visit : Option Location → Table → Path → Outline → Outline)
    (recur : Recur) : Prop :=
  ∀ location? t path, Follows options visit [.visit location? t path]
    (recur location? t path) fun _ => True

theorem mapM_follows {α ι : Type} {f : ι → Derive α} {event : ι → Event} {good : ι → α → Prop}
    {items : List ι} (each : ∀ i ∈ items, Follows options visit [event i] (f i) (good i)) :
    Follows options visit (items.map event) (items.mapM f) (Forall₂ good items) := by
  rw [map_eq_flatMap]
  exact .mapM each

theorem each_follows (recurs : RecurFollows options visit recur) (step : Nat → Step) (p : Path)
    (list : List (Option Schema)) :
    Follows options visit (Event.ofEach location table step p list)
      (each recur ⟨corpus, options, location, table, path, depth⟩ step p list) fun _ => True :=
  .bind_silent (mapM_follows fun _ _ => recurs _ _ _) fun _ _ => .pure trivial

theorem constant_follows (v : Value) : Follows options visit [] (constant v) fun _ => True := by
  cases v with
  | null => exact .pure trivial
  | _ => exact .draw _

theorem array_follows (recurs : RecurFollows options visit recur) :
    Follows options visit (Event.ofItems corpus location table path k)
      (array recur ⟨corpus, options, location, table, path, depth⟩ k) fun _ => True := by
  have item : ∀ location? (u : Table) (p : Path), Follows options visit [.visit location? u p]
      (do
        let result ← recur location? u p
        return (← draw (Shape.ofItems result.1), result.2)) fun _ => True :=
    fun location? u p => .bind_silent (recurs location? u p) fun _ _ =>
      .silent_bind (.draw _) fun _ _ => .pure trivial
  unfold array Event.ofItems
  cases k.items? with
  | none => exact .silent_bind (.draw _) fun _ _ => .pure trivial
  | some items =>
    dsimp only
    cases (if isBareOneOf items.keywords then items.keywords.oneOf? else none) with
    | none => exact item _ _ _
    | some alternatives =>
      exact .bind_silent (mapM_follows fun i _ => item _ _ _) fun _ _ =>
        .silent_bind (.draw _) fun _ _ => .pure trivial

theorem extra_follows (recurs : RecurFollows options visit recur) :
    Follows options visit (Event.ofExtra location table path k)
      (extra recur ⟨corpus, options, location, table, path, depth⟩ k) fun _ => True := by
  unfold extra Event.ofExtra
  cases k.additionalProperties? with
  | none => exact .pure trivial
  | some s =>
    dsimp only
    cases s.keywords.boolean? with
    | some b => cases b <;> exact .pure trivial
    | none => exact .bind_silent (recurs _ _ _) fun _ _ => .pure trivial

theorem property_follows (recurs : RecurFollows options visit recur) (name : String)
    (s? : Option Schema) :
    Follows options visit [.visit (s?.map fun _ => location.child (.property name)) table
      ((path.field "properties").field name)]
      (property recur ⟨corpus, options, location, table, path, depth⟩ k name s?) fun r =>
      r.1.name = name :=
  .bind_silent (recurs _ _ _) fun _ _ => .pure rfl

theorem intersect_follows (a b : Shape) : Follows options visit [] (intersect a b) fun _ => True :=
  fun st => Follows.draw (a.intersect st.graph b) st

theorem intersectAll_follows (shapes : List Shape) :
    Follows options visit [] (intersectAll shapes) fun _ => True :=
  fun st => Follows.draw (Shape.intersectAll st.graph shapes) st

theorem combine_follows (recurs : RecurFollows options visit recur) (r : Result) :
    Follows options visit (Event.ofCombined location table path k)
      (combine recur ⟨corpus, options, location, table, path, depth⟩ k r) fun _ => True := by
  have choose : ∀ (list : List (Option Schema)) (r : Result),
      Follows options visit (Event.ofEach location table .oneOf (path.field "oneOf") list)
      (do
        let parts ← each recur ⟨corpus, options, location, table, path, depth⟩ .oneOf
            (path.field "oneOf") list
        return (← intersect r.1 (← draw (Shape.unionOf false parts.1)), lower r.2 parts.2)) fun _ =>
          True := by
    intro list r
    refine .bind_silent (each_follows recurs _ _ _) fun _ _ => .silent_bind (.draw _) fun _ _ => ?_
    exact .silent_bind (intersect_follows _ _) fun _ _ => .pure trivial
  obtain ⟨shape, low⟩ := r
  unfold combine Event.ofCombined
  dsimp only
  cases k.allOf? with
  | none =>
    cases k.oneOf? with
    | none => exact .pure trivial
    | some list => exact choose list (shape, low)
  | some list =>
    refine .bind (each_follows recurs _ _ _) fun parts _ =>
      .silent_bind (intersectAll_follows _) fun joint _ => ?_
    refine .silent_bind (intersect_follows _ _) fun s _ => ?_
    cases k.oneOf? with
    | none => exact .pure trivial
    | some list => exact choose list (s, lower low parts.2)

theorem withRequired_follows (base : Shape) (props : List (Property Shape)) (extra? : Option Shape)
    (names : List String) :
    Follows options visit [] (withRequired base props extra? names) fun _ => True := by
  unfold withRequired
  split_ifs
  · exact .pure trivial
  · exact .draw _

theorem property?_isNone_eq (declared : props.map (·.name) = names) (name : String) :
    (Shape.property? props name).isNone = !names.contains name := by
  subst declared
  unfold Shape.property?
  rw [← Option.not_isSome, isSome_find?, contains_eq_any_beq, any_map]
  congr 2
  funext p
  exact BEq.comm

theorem variants_follows (declared : props.map (·.name) = names) (base : Shape)
    (extra? : Option Shape) (branches : List (Option Schema × Nat)) :
    Follows options visit [] (variants base props extra? branches) fun r =>
      (∃ odd, Event.undeclared? names branches = some odd ∧ r = .error odd) ∨
      Event.undeclared? names branches = none ∧ ∃ shapes, r = .ok shapes := by
  induction branches with
  | nil => exact .pure (.inr ⟨rfl, [], rfl⟩)
  | cons branch rest ih =>
    obtain ⟨s?, i⟩ := branch
    rw [variants]
    simp only [Event.undeclared?, findSome?_cons, property?_isNone_eq declared] at ih ⊢
    cases ((s?.bind (·.keywords.required?)).getD []).find? fun name => !names.contains name with
    | some name => exact .pure (.inl ⟨(i, name), rfl, rfl⟩)
    | none =>
      refine .silent_bind (withRequired_follows base props extra? _) fun variant _ =>
        .silent_bind ih fun more ends => ?_
      rcases ends with ⟨odd, found, rfl⟩ | ⟨fine, shapes, rfl⟩
      · exact .pure (.inl ⟨odd, found, rfl⟩)
      · exact .pure (.inr ⟨fine, _, rfl⟩)

theorem report_outline (options : Options) (issue : Issue) :
    ∀ st a st', report options issue st = .ok (a, st') →
      st'.outline = st.outline.report options issue := by
  intro st a st' ran
  cases ran
  unfold Outline.report mark
  simp only [contains_iff_mem]
  change _ = if _ ∈ st.reported then _ else _
  split_ifs <;> rfl

theorem malformed_follows (p : Path) (message : String) :
    Follows options visit [.malformed p message] (malformed options p message) fun _ => True := by
  intro st a st' ran
  refine ⟨?_, trivial⟩
  change st'.outline = Outline.follow options visit st.outline (.malformed p message)
  unfold malformed at ran
  unfold Outline.follow
  split_ifs at ran ⊢
  · obtain ⟨_, st₁, told, ended⟩ := bind_run ran
    cases ended
    exact report_outline options _ st _ st' told
  · cases ran
    rfl

theorem unresolved_follows (p : Path) (key : String) :
    Follows options visit [.unresolved p key table] (unresolved options p key table) fun _ => True :=
  fun st a st' ran => ⟨report_outline options _ st a st' ran, trivial⟩

theorem properties_follows (recurs : RecurFollows options visit recur)
    (entries : List (String × Option Schema)) :
    Follows options visit (Event.ofProperties location table path entries)
      (entries.mapM fun (name, s?) => property recur ⟨corpus, options, location, table, path, depth⟩
      k name s?) fun results => (results.map (·.1)).map (·.name) = entries.map (·.1) := by
  have derived : Follows options visit (Event.ofProperties location table path entries)
      (entries.mapM fun (name, s?) =>
      property recur ⟨corpus, options, location, table, path, depth⟩ k name s?)
      (Forall₂ (fun entry r => r.1.name = entry.1) entries) :=
        mapM_follows fun entry _ => property_follows recurs entry.1 entry.2
  intro st results st' ran
  obtain ⟨outline, named⟩ := derived st results st' ran
  refine ⟨outline, ?_⟩
  change (results.map (·.1)).map (·.name) = entries.map (·.1)
  rw [map_map, ← forall₂_eq_eq_eq, forall₂_map_left_iff, forall₂_map_right_iff]
  exact named.flip

theorem object_follows (recurs : RecurFollows options visit recur) :
    Follows options visit (Event.ofObject location table path k)
      (object recur ⟨corpus, options, location, table, path, depth⟩ k) fun _ => True := by
  unfold object Event.ofObject Event.complaint?
  rw [append_assoc]
  refine .bind (extra_follows recurs) fun extra _ => ?_
  cases k.properties? with
  | none =>
    dsimp only
    split_ifs
    · exact malformed_follows _ _
    · exact .silent_bind (.draw _) fun base _ => combine_follows recurs _
  | some entries =>
    dsimp only
    refine .bind (properties_follows recurs entries) fun results declared =>
      .silent_bind (.draw _) fun base _ => ?_
    cases k.anyOf? with
    | none => exact combine_follows recurs _
    | some branches =>
      refine .silent_bind (variants_follows declared base _ _) fun r ends => ?_
      rcases ends with ⟨odd, found, rfl⟩ | ⟨fine, shapes, rfl⟩
      · simp only [Option.bind_some, found, Option.map_some]
        exact malformed_follows _ _
      · simp only [Option.bind_some, fine, Option.map_none]
        exact .silent_bind (.draw _) fun united _ => combine_follows recurs _

theorem typed_follows (recurs : RecurFollows options visit recur) (name : String) :
    Follows options visit (Event.ofType corpus location table path k name)
      (typed recur ⟨corpus, options, location, table, path, depth⟩ k name) fun _ => True := by
  unfold typed
  split
  · split_ifs
    · exact .silent_bind (.draw _) fun _ _ => .pure trivial
    · exact .pure trivial
    · exact .pure trivial
  · exact .pure trivial
  · exact .pure trivial
  · exact .pure trivial
  · exact .pure trivial
  · exact object_follows recurs
  · exact array_follows recurs
  · rename_i notObject notArray
    have nothing : Event.ofType corpus location table path k name = [] := by
      unfold Event.ofType
      split
      · exact absurd rfl notObject
      · exact absurd rfl notArray
      · rfl
    rw [nothing]
    exact .pure trivial

theorem dispatch_follows (recurs : RecurFollows options visit recur) :
    Follows options visit (Event.ofSchema corpus location table path k)
      (dispatch recur ⟨corpus, options, location, table, path, depth⟩ k) fun _ => True := by
  unfold dispatch Event.ofSchema
  cases k.boolean? with
  | some b => exact .pure trivial
  | none =>
    simp only [Option.isSome_none, Bool.false_eq_true, if_false]
    split_ifs with refers literal
    · cases table.resolve corpus k.ref with
      | none => exact .bind_silent (unresolved_follows _ _) fun _ _ => .pure trivial
      | some target => exact recurs _ _ _
    · cases constant : k.const? with
      | some v => exact .silent_bind (constant_follows v) fun _ _ => .pure trivial
      | none =>
        cases listed : k.enum? with
        | none => simp [constant, listed] at literal
        | some values =>
          have constants : Follows options visit (values.flatMap fun _ => [])
              (values.mapM Derivation.constant) (Forall₂ (fun _ _ => True) values) :=
            .mapM fun v _ => constant_follows v
          rw [show (values.flatMap fun _ => ([] : List Event)) = [] by simp] at constants
          exact .silent_bind constants fun _ _ => .silent_bind (.draw _) fun _ _ => .pure trivial
    · simp only [Bool.or_eq_true, not_or, Option.not_isSome_iff_eq_none] at literal
      rw [literal.1, literal.2]
      dsimp only
      cases k.type with
      | one name => exact typed_follows recurs name
      | list names =>
        have types : Follows options visit (names.flatMap (Event.ofType corpus location table path k))
            (names.mapM (typed recur ⟨corpus, options, location, table, path, depth⟩ k))
            (Forall₂ (fun _ _ => True) names) :=
          .mapM fun name _ => typed_follows recurs name
        exact .bind_silent types fun _ _ => .silent_bind (.draw _) fun _ _ => .pure trivial
      | absent =>
        cases k.anyOf? with
        | some list =>
          exact .bind_silent (each_follows recurs _ _ list) fun _ _ =>
            .silent_bind (.draw _) fun _ _ => .pure trivial
        | none =>
          cases k.allOf? with
          | some list =>
            exact .bind_silent (each_follows recurs _ _ list) fun _ _ =>
              .silent_bind (intersectAll_follows _) fun _ _ => .pure trivial
          | none =>
            cases k.oneOf? with
            | some list =>
              exact .bind_silent (each_follows recurs _ _ list) fun _ _ =>
                .silent_bind (.draw _) fun _ _ => .pure trivial
            | none => exact .pure trivial

variable {st st' : State} {r : Result} {f : Frame}

theorem onGraph_outline {α : Type} {f : Graph.Build α} {a : α} (ran : onGraph f st = .ok (a, st')) :
    st'.outline = st.outline := by
  change (f st.graph >>= fun built => Except.ok (built.1, { st with graph := built.2 })) = _ at ran
  cases built : f st.graph with
  | error e =>
    rw [built] at ran
    cases ran
  | ok result =>
    rw [built] at ran
    cases ran
    rfl

theorem handleOf_outline {id : Nat} (ran : handleOf f st = .ok (id, st')) : st'.outline = st.outline := by
  cases handle : f.handle? with
  | some known =>
    rw [handleOf_known handle] at ran
    cases ran
    rfl
  | none =>
    obtain ⟨_, _, _, equal⟩ := handleOf_new st handle
    rw [equal] at ran
    cases ran
    have keys : (st.stack.map (f.refer st.graph.handles.size)).map (·.key) = st.stack.map (·.key) := by
      rw [map_map]
      exact map_congr_left fun x _ => f.refer_key _ x
    unfold State.outline
    dsimp only
    rw [keys]

theorem closeFrame_outline {r' : Result} (ran : closeFrame f r st = .ok (r', st')) :
    st'.outline =
      { st.outline with opened := st.outline.opened.drop 1, known := f.key :: st.outline.known } :=
      by
  obtain ⟨shape, low?⟩ := r
  have ending : ∀ (shape : Shape) (st₁ : State), (do
      let low? := low?.filter (· < f.depth)
      let stack := (← get).stack
      let frame? := low?.bind fun low => (stack.find? (·.depth == low)).map (·.id)
      if low?.isSome && frame?.isNone then throw .outOfRange
      modify fun s => { s with memo := ⟨f.key, shape, frame?⟩ :: s.memo }
      return (shape, low?) : Derive Result) st₁ = .ok (r', st') →
        st'.outline = { st₁.outline with known := f.key :: st₁.outline.known } := by
    intro shape st₁ ran
    obtain ⟨_, _, equal, ran⟩ := bind_run ran
    cases equal
    dsimp only at ran
    split_ifs at ran
    · obtain ⟨_, _, thrown, _⟩ := bind_run ran
      cases thrown
    · cases ran
      rfl
  unfold closeFrame at ran
  obtain ⟨_, _, equal, ran⟩ := bind_run ran
  cases equal
  obtain ⟨_, _, equal, ran⟩ := bind_run ran
  cases equal
  have dropped : ({ st with stack := st.stack.drop 1 } : State).outline =
      { st.outline with opened := st.outline.opened.drop 1 } := by
    unfold State.outline
    rw [map_drop]
  cases handle : st.stack.head?.bind (·.handle?) with
  | none =>
    simp only [handle] at ran
    rw [ending shape _ ran, dropped]
  | some id =>
    simp only [handle] at ran
    obtain ⟨_, st₁, bound, ran⟩ := bind_run ran
    rw [ending _ _ ran, onGraph_outline bound, dropped]

theorem inFrame_outline (recurs : RecurFollows options visit recur)
    (ran : inFrame recur corpus options location s t path st = .ok (r, st')) :
    st'.outline = st.outline.within options visit (keyOf s location t)
      (Event.ofSchema corpus location (t.enterSchema s.keywords location t.scope) path
      s.keywords) := by
  rw [inFrame_eq] at ran
  obtain ⟨⟨r₁, st₁⟩, dispatched, closed⟩ := bind_eq_ok_iff.mp ran
  rw [closeFrame_outline closed, (dispatch_follows recurs _ r₁ st₁ dispatched).1]
  rfl

/-- The outline of what a derivation ends with is that of the tour. -/
theorem derive_outline (budget : Nat) :
    RecurFollows options (tour corpus options budget) (derive corpus options budget) := by
  rw [← deriveBy_true]
  induction budget with
  | zero => exact fun location? t path st r st' ran => nomatch ran
  | succ budget ih =>
    intro location? t path st r st' ran
    refine ⟨?_, trivial⟩
    change st'.outline = tour corpus options (budget + 1) location? t path st.outline
    cases stopped : st.stopped with
    | true =>
      rw [deriveBy_stopped stopped] at ran
      cases ran
      exact (tour_stopped stopped _).symm
    | false =>
      cases found : location?.bind corpus.get? with
      | none =>
        rw [deriveBy_absent found] at ran
        cases ran
        exact (tour_absent found _).symm
      | some s =>
        obtain ⟨location, rfl, present⟩ := Option.bind_eq_some_iff.mp found
        cases reached : st.stack.find? (·.key == keyOf s location t) with
        | some f =>
          rw [deriveBy_open stopped present reached] at ran
          obtain ⟨id, st₁, handled, ended⟩ := bind_run ran
          cases ended
          rw [handleOf_outline handled]
          exact (tour_met present (.inr (.inl (mem_map_of_find?_eq_some reached))) _).symm
        | none =>
          have closed : keyOf s location t ∉ st.outline.opened := not_mem_map_of_find?_eq_none reached
          cases recalled : st.memo.find? (·.key == keyOf s location t) with
          | some m =>
            rw [deriveBy_known stopped present reached recalled] at ran
            cases ran
            exact (tour_met present (.inr (.inr (mem_map_of_find?_eq_some recalled))) _).symm
          | none =>
            have unknown : keyOf s location t ∉ st.outline.known := not_mem_map_of_find?_eq_none recalled
            rw [deriveBy_new stopped present reached fun _ => recalled] at ran
            rw [inFrame_outline ih ran, tour_new present stopped closed unknown]

/-- The schemas that a derivation comes to, each with the table through which it is seen and the
path to it. -/
inductive Visits (corpus : Corpus) (node : Location) (t : Table) : Location → Table → Path → Prop
  | start : Visits corpus node t node (startTable corpus node t) .root
  | step {location next : Location} {s : Schema} {u v : Table} {path way : Path}
      (visits : Visits corpus node t location u path)
      (present : corpus.get? location = some s)
      (event : .visit (some next) v way ∈ Event.ofSchema corpus location (u.enter corpus location)
      path s.keywords) : Visits corpus node t next v way

def Outline.start : Outline := ⟨[], [], [], [], [], false, true⟩

def runTour (corpus : Corpus) (node : Location) (t : Table) (options : Options) : Outline :=
  tour corpus options (deriveBudget corpus (startTable corpus node t)) (some node)
    (startTable corpus node t) .root .start

/-- A run ends, and tells what its tour does; the budget suffices. -/
theorem run_tour (documents : corpus.DocumentConstants) (node : Location) (options : Options)
    (g : Graph) :
    ∃ o g', run corpus node t options g = .ok (o, g') ∧
      o.issues = (runTour corpus node t options).issues ∧
      ((∃ shape, o.result = .ok shape) ↔ (runTour corpus node t options).issues = []) ∧
      (runTour corpus node t options).whole = true := by
  have ends : ∃ o g', run corpus node t options g = .ok (o, g') := by
    cases present : corpus.get? node with
    | none => exact ⟨_, _, run_absent present⟩
    | some root =>
      have along : RunsAlong True g (run corpus node t options {}) (run corpus node t options g) :=
        run_along present (.refl _) (fun _ => documents) g
      obtain ⟨-, -, o, g', -, ran, -⟩ := along.ok_of_strict
      exact ⟨o, g', ran⟩
  obtain ⟨o, g', ran⟩ := ends
  refine ⟨o, g', ran, ?_⟩
  rw [run_eq] at ran
  cases derived : derive corpus options (deriveBudget corpus (startTable corpus node t)) (some node)
    (startTable corpus node t) .root
      { graph := g } with
  | error e =>
    rw [derived] at ran
    cases ran
  | ok ended =>
    obtain ⟨r, st⟩ := ended
    rw [derived] at ran
    cases ran
    have outline : st.outline = runTour corpus node t options := (derive_outline _ _ _ _ _ _ _ derived).1
    rw [issues_ofEnd, ← outline]
    refine ⟨rfl, ?_, rfl⟩
    unfold Outcome.ofEnd State.outline
    cases st.issues <;> simp

theorem exists_of_evaluated {α : Type} {ran : Except Fault (Outcome × Graph)} {f : Outcome → α}
    {a : α} (evaluated : ran.toOption.map (fun ended => f ended.1) = some a) :
    ∃ o g, ran = .ok (o, g) ∧ f o = a := by
  cases ran with
  | error e => cases evaluated
  | ok ended => exact ⟨ended.1, ended.2, rfl, Option.some.inj evaluated⟩

end Derivation

end JsonShape
