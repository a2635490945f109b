import JsonShape.Proofs.Outline

/-! Scopes of references. Definitions are entered under the id of the innermost resource. So
wherever a derivation comes to, the schema stands inside a resource that has the id of the innermost
one. -/
namespace JsonShape
open List Option

variable {s : Schema}

def Entry.Encloses (r : Entry) (location : Location) : Prop :=
  ∃ home steps, r.node? = some home ∧ location = ⟨home.document, home.steps ++ steps⟩

namespace Entry

variable {r : Entry} {location : Location}

theorem encloses_node (here : r.node? = some location) : r.Encloses location :=
  ⟨location, [], here, by rw [append_nil]⟩

theorem Encloses.steps (encloses : r.Encloses location) (more : List Step) :
    r.Encloses ⟨location.document, location.steps ++ more⟩ := by
  obtain ⟨home, steps, node, rfl⟩ := encloses
  exact ⟨home, steps ++ more, node, by rw [append_assoc]⟩

end Entry

theorem Corpus.get?_append (corpus : Corpus) (home : Location) (steps : List Step) :
    corpus.get? ⟨home.document, home.steps ++ steps⟩ = (corpus.get? home).bind (·.at? steps) := by
  rw [get?, get?]
  cases corpus[home.document]? with
  | none => rfl
  | some s => exact s.at?_append home.steps steps

theorem Schema.child?_of_mem_localDefs {c : Schema} (ordered : s.keywords.Ordered) {step : Step}
    {name : String} (defined : (step, name, some c) ∈ s.keywords.localDefs) :
    s.child? step = some c := by
  unfold Keywords.localDefs at defined
  obtain ⟨⟨key, way, s?⟩, member, equal⟩ := mem_map.mp defined
  cases equal
  rcases Entries.mem_foldl_insert member with newer | older
  · obtain ⟨⟨name, s?⟩, inside, equal⟩ := mem_map.mp newer
    cases equal
    exact Schema.named_found ordered.defs inside
  · obtain ⟨⟨name, s?⟩, inside, equal⟩ := mem_map.mp older
    cases equal
    exact Schema.named_found ordered.definitions inside

namespace Table

variable {corpus : Corpus} {t u v : Table} {id : String} {location : Location}
  {node? : Option Location} {e : Entry}
variable {r : Entry} {fragment : List Char} {key : String}

def Houses (t : Table) (id : String) (location : Location) : Prop :=
  ∃ r ∈ t.entries, r.isResource = true ∧ r.id = id ∧ r.Encloses location

/-- Definitions stand in resources with the ids under which they are entered. -/
def Housed (t : Table) : Prop := ∀ d ∈ t.entries, ∀ name, d.name? = some name → ∀ location,
    d.node? = some location → t.Houses d.id location

/-- How a table is where a schema is visited: the schema itself stands in a resource that has the id
of the innermost one. -/
structure Scoped (t : Table) (location : Location) : Prop where
  housed : t.Housed
  here : t.Houses t.scope location

theorem Houses.mono (houses : t.Houses id location) (more : ∀ e ∈ t.entries, e ∈ u.entries) :
    u.Houses id location := by
  obtain ⟨r, member, rest⟩ := houses
  exact ⟨r, more r member, rest⟩

theorem Houses.steps (houses : t.Houses id location) (steps : List Step) :
    t.Houses id ⟨location.document, location.steps ++ steps⟩ := by
  obtain ⟨r, member, resource, same, encloses⟩ := houses
  exact ⟨r, member, resource, same, encloses.steps steps⟩

theorem Scoped.child (inside : t.Scoped location) (step : Step) : t.Scoped (location.child step) :=
  ⟨inside.housed, inside.here.steps [step]⟩

theorem Housed.push (housed : t.Housed)
    (inside : ∀ name, e.name? = some name → ∀ location, e.node? = some location →
      t.Houses e.id location) : (t.push e).Housed := by
  have more : ∀ x ∈ t.entries, x ∈ (t.push e).entries := fun x member => mem_push.mpr (.inr member)
  intro d member name named location node
  rcases mem_push.mp member with rfl | old
  · exact (inside name named location node).mono more
  · exact (housed d old name named location node).mono more

theorem Housed.push_resource (housed : t.Housed) (resource : r.isResource = true) : (t.push r).Housed := by
  refine housed.push fun name named => ?_
  rw [Entry.isResource, named] at resource
  cases resource

theorem resource?_push_resource (resource : r.isResource = true) : (t.push r).resource? = some r := by
  rw [resource?, innermost?_push, if_pos resource]

theorem resource?_push_definition (definition : e.isResource = false) :
    (t.push e).resource? = t.resource? := by
  rw [resource?, innermost?_push, if_neg (by simp [definition]), resource?]

theorem scope_eq (innermost : t.resource? = some r) : t.scope = r.id := by
  rw [scope, innermost]
  rfl

theorem resource?_definitions (t : Table) (id : String) (location : Location)
    (defs : List (Step × String × Option Schema)) :
    (defs.foldl (fun t (step, name, s?) =>
      t.push ⟨id, some name, s?.map fun _ => location.child step⟩) t).resource? = t.resource? := by
  induction defs generalizing t with
  | nil => rfl
  | cons first rest ih => exact (ih _).trans (resource?_push_definition rfl)

theorem resource?_enterSchema (t : Table) (k : Keywords Schema) (location : Location)
    (scope : String) :
    (t.enterSchema k location scope).resource? = if k.id = "" then
      t.resource? else some (.resource k.id location) := by
  unfold Table.enterSchema
  by_cases own : k.id = ""
  · simp only [own, bne_self_eq_false, Bool.false_eq_true, if_false, if_true]
    exact resource?_definitions t scope location k.localDefs
  · simp only [own, bne_iff_ne, ne_eq, not_false_eq_true, if_true, if_false]
    exact (resource?_definitions _ k.id location k.localDefs).trans (resource?_push_resource rfl)

theorem Housed.definitions (housed : t.Housed) (houses : t.Houses id location)
    (defs : List (Step × String × Option Schema)) :
    (defs.foldl (fun t (step, name, s?) =>
      t.push ⟨id, some name, s?.map fun _ => location.child step⟩) t).Housed ∧
      (defs.foldl (fun t (step, name, s?) =>
      t.push ⟨id, some name, s?.map fun _ => location.child step⟩) t).Houses id location := by
  induction defs generalizing t with
  | nil => exact ⟨housed, houses⟩
  | cons first rest ih =>
    obtain ⟨step, name, s?⟩ := first
    have pushed : (t.push ⟨id, some name, s?.map fun _ => location.child step⟩).Housed := by
      refine housed.push fun _ _ place node => ?_
      obtain ⟨-, -, rfl⟩ := map_eq_some_iff.mp node
      exact houses.steps [step]
    exact ih pushed (houses.mono fun x member => mem_push.mpr (.inr member))

theorem Housed.enterSchema (housed : t.Housed) {scope : String} (houses : t.Houses scope location)
    (k : Keywords Schema) :
    (t.enterSchema k location scope).Housed ∧
      (t.enterSchema k location scope).Houses (if k.id = "" then scope else k.id) location := by
  unfold Table.enterSchema
  by_cases own : k.id = ""
  · simp only [own, bne_self_eq_false, Bool.false_eq_true, if_false, if_true]
    exact housed.definitions houses k.localDefs
  · simp only [own, bne_iff_ne, ne_eq, not_false_eq_true, if_true, if_false]
    have houses : (t.push (.resource k.id location)).Houses k.id location :=
      ⟨.resource k.id location, mem_push.mpr (.inl rfl), rfl, rfl, Entry.encloses_node rfl⟩
    exact (housed.push_resource rfl).definitions houses k.localDefs

theorem Scoped.enter (inside : t.Scoped location) : (t.enter corpus location).Scoped location := by
  unfold Table.enter
  cases corpus.get? location with
  | none => exact inside
  | some s =>
    obtain ⟨housed, houses⟩ := inside.housed.enterSchema inside.here s.keywords
    have scope : (t.enterSchema s.keywords location t.scope).scope = if s.keywords.id = "" then
        t.scope else s.keywords.id := by
      rw [Table.scope, resource?_enterSchema]
      split_ifs <;> rfl
    exact ⟨housed, scope ▸ houses⟩

theorem housed_ofDocuments (documents : List Nat) : (ofDocuments corpus documents).Housed := by
  refine ofDocuments_induction nofun (fun t location s _ housed => ?_) documents
  refine ((housed.push_resource rfl).enterSchema ?_ s.keywords).1
  exact ⟨.resource s.keywords.id location, mem_push.mpr (.inl rfl), rfl, rfl, Entry.encloses_node rfl⟩

theorem Scoped.push_resource (housed : t.Housed) (resource : r.isResource = true)
    (houses : t.Houses r.id location) : (t.push r).Scoped location := by
  refine ⟨housed.push_resource resource, ?_⟩
  rw [scope_eq (resource?_push_resource resource)]
  exact houses.mono fun x member => mem_push.mpr (.inr member)

/-- How a fragment leads to a schema in a resource. -/
inductive Lands (corpus : Corpus) (t : Table) (r : Entry) : List Char → Option Location → Prop
  | whole : Lands corpus t r [] r.node?
  | pointed {rest : List Char} {d : Entry}
      (there : t.pointedDefinition? r.id ('/' :: rest) = some d) :
      Lands corpus t r ('/' :: rest) d.node?
  | way {rest : List Char} {home : Location} {s : Schema} {steps : List Step}
      (other : t.pointedDefinition? r.id ('/' :: rest) = none)
      (node : r.node? = some home) (present : corpus.get? home = some s)
      (found : s.lookup? (String.ofList ('/' :: rest)) = some steps) :
      Lands corpus t r ('/' :: rest) (some ⟨home.document, home.steps ++ steps⟩)
  | named {c : Char} {rest : List Char} {d : Entry} (other : c ≠ '/')
      (there : t.definition? r.id (String.ofList (c :: rest)) = some d) :
      Lands corpus t r (c :: rest) d.node?

theorem lands_of_fragment? (found : t.fragment? corpus r fragment = some node?) :
    Lands corpus t r fragment node? := by
  unfold fragment? at found
  split at found
  · exact some.inj found ▸ .whole
  · rename_i rest
    split at found
    · rename_i d there
      exact some.inj found ▸ .pointed there
    · rename_i other
      obtain ⟨home, node, found⟩ := bind_eq_some_iff.mp found
      obtain ⟨s, present, found⟩ := bind_eq_some_iff.mp found
      obtain ⟨steps, found, ended⟩ := bind_eq_some_iff.mp found
      exact some.inj ended ▸ .way other node present found
  · rename_i some_name not_pointer
    obtain ⟨d, there, rfl⟩ := map_eq_some_iff.mp found
    cases fragment with
    | nil => exact absurd rfl some_name
    | cons c rest => exact .named (fun slash => not_pointer rest (slash ▸ rfl)) there

/-- How a reference leads to a schema, and to the table for it. -/
inductive Resolves (corpus : Corpus) (t : Table) (key : String) : Option Location → Table → Prop
  | innermost {r : Entry} (bare : Text.cut '#' key.toList = ([], none))
      (there : t.resource? = some r) : Resolves corpus t key r.node? t
  | byId {base : List Char} {r : Entry} (bare : Text.cut '#' key.toList = (base, none))
      (there : t.resourceById? (String.ofList base) = some r) :
    Resolves corpus t key r.node? (t.push r)
  | byName {base : List Char} {d : Entry} (bare : Text.cut '#' key.toList = (base, none))
      (other : t.resourceById? (String.ofList base) = none)
      (there : t.anyDefinition? (String.ofList base) = some d) :
      Resolves corpus t key d.node? (t.promote d.id)
  | fragment {base fragment : List Char} {r : Entry} {node? : Option Location}
      (parts : Text.cut '#' key.toList = (base, some fragment))
      (member : r ∈ t.entries) (resource : r.isResource = true)
      (lands : Lands corpus t r fragment node?) : Resolves corpus t key node? (t.push r)

theorem resolves_of_resolve (found : t.resolve corpus key = some (node?, v)) :
    Resolves corpus t key node? v := by
  unfold resolve at found
  dsimp only at found
  cases parts : Text.cut '#' key.toList with
  | mk base fragment? =>
    rw [parts] at found
    cases fragment? with
    | none =>
      dsimp only at found
      split_ifs at found with empty
      · obtain ⟨r, there, equal⟩ := map_eq_some_iff.mp found
        obtain ⟨rfl, rfl⟩ := Prod.mk.inj equal
        obtain rfl : base = [] := by simpa using empty
        exact .innermost parts there
      · cases there : t.resourceById? (String.ofList base) with
        | some r =>
          simp only [there, some.injEq, Prod.mk.injEq] at found
          obtain ⟨rfl, rfl⟩ := found
          exact .byId parts there
        | none =>
          simp only [there] at found
          obtain ⟨d, named, equal⟩ := map_eq_some_iff.mp found
          obtain ⟨rfl, rfl⟩ := Prod.mk.inj equal
          exact .byName parts there named
    | some fragment =>
      have inside : ∀ {r : Entry}, r ∈ t.entries → r.isResource = true →
          ((t.fragment? corpus r fragment).bind fun node? => some (node?, t.push r)) =
          some (node?, v) → Resolves corpus t key node? v := by
        intro r member resource found
        obtain ⟨place, lands, ended⟩ := bind_eq_some_iff.mp found
        obtain ⟨rfl, rfl⟩ := Prod.mk.inj (some.inj ended)
        exact .fragment parts member resource (lands_of_fragment? lands)
      dsimp only at found
      split_ifs at found with empty
      · obtain ⟨r, there, rest⟩ := bind_eq_some_iff.mp found
        exact inside (innermost?_mem there) (resource?_isResource there) rest
      · obtain ⟨r, there, rest⟩ := bind_eq_some_iff.mp found
        exact inside (innermost?_mem there) (resourceById?_test there).1 rest

theorem pointedDefinition?_defined {d : Entry} (there : t.pointedDefinition? id fragment = some d) :
    ∃ name, t.definition? id name = some d := by
  unfold pointedDefinition? at there
  rcases or_eq_some_iff.mp there with found | ⟨-, found⟩
  all_goals
    obtain ⟨name, -, found⟩ := bind_eq_some_iff.mp found
    split_ifs at found
    exact ⟨_, found⟩

theorem Lands.houses (lands : Lands corpus t r fragment (some location)) (housed : t.Housed)
    (member : r ∈ t.entries) (resource : r.isResource = true) : t.Houses r.id location := by
  have defined : ∀ {name : String} {d : Entry}, t.definition? r.id name = some d →
      d.node? = some location → t.Houses r.id location := by
    intro name d there node
    obtain ⟨named, same⟩ := definition?_test there
    exact same ▸ housed d (innermost?_mem there) name named location node
  generalize target : some location = node? at lands
  cases lands with
  | whole => exact ⟨r, member, resource, rfl, Entry.encloses_node target.symm⟩
  | pointed there =>
    obtain ⟨name, there⟩ := pointedDefinition?_defined there
    exact defined there target.symm
  | way other node present found =>
    cases target
    exact ⟨r, member, resource, rfl, _, _, node, rfl⟩
  | named other there => exact defined there target.symm

theorem Houses.promote (houses : t.Houses id location) (housed : t.Housed) :
    (t.promote id).Scoped location := by
  unfold Table.promote
  cases found : t.resourceById? id with
  | some r =>
    obtain ⟨resource, rfl⟩ := resourceById?_test found
    exact .push_resource housed resource houses
  | none =>
    obtain ⟨r, member, resource, same, -⟩ := houses
    exact absurd (by simp [resource, same]) (find?_eq_none.mp found r (mem_reverse.mpr member))

theorem Housed.resolve (housed : t.Housed)
    (found : t.resolve corpus key = some (some location, v)) : v.Scoped location := by
  have itself : ∀ {r : Entry}, r ∈ t.entries → r.isResource = true → r.node? = some location →
      t.Houses r.id location :=
    fun member resource node => ⟨_, member, resource, rfl, Entry.encloses_node node⟩
  generalize target : some location = node? at found
  cases resolves_of_resolve found with
  | innermost bare there =>
    refine ⟨housed, ?_⟩
    rw [scope_eq there]
    exact itself (innermost?_mem there) (resource?_isResource there) target.symm
  | byId bare there =>
    have resource := (resourceById?_test there).1
    exact .push_resource housed resource (itself (innermost?_mem there) resource target.symm)
  | byName bare other there =>
    exact (housed _ (innermost?_mem there) _ (anyDefinition?_test there) location
      target.symm).promote housed
  | fragment parts member resource lands =>
    subst target
    exact .push_resource housed resource (lands.houses housed member resource)

theorem Over.present (covered : t.Over corpus) (ordered : corpus.Ordered) {e : Entry}
    (member : e ∈ t.entries) (node : e.node? = some location) :
    ∃ s, corpus.get? location = some s := by
  cases covered e member with
  | resource present =>
    cases node
    exact ⟨_, present⟩
  | definition present defined owned =>
    obtain ⟨c, rfl, rfl⟩ := map_eq_some_iff.mp node
    rw [corpus.get?_child, present]
    exact ⟨c, Schema.child?_of_mem_localDefs (ordered _ _ present) defined⟩

theorem Over.lands_present (covered : t.Over corpus) (ordered : corpus.Ordered) (member : r ∈ t.entries)
    (lands : Lands corpus t r fragment (some location)) : ∃ s, corpus.get? location = some s := by
  generalize target : some location = node? at lands
  cases lands with
  | whole => exact covered.present ordered member target.symm
  | pointed there =>
    obtain ⟨name, there⟩ := pointedDefinition?_defined there
    exact covered.present ordered (innermost?_mem there) target.symm
  | way other node present found =>
    cases target
    obtain ⟨steps, -, found⟩ := bind_eq_some_iff.mp found
    obtain ⟨s, reached, ended⟩ := bind_eq_some_iff.mp found
    cases ended
    exact ⟨s, by rw [corpus.get?_append, present, bind_some, reached]⟩
  | named other there => exact covered.present ordered (innermost?_mem there) target.symm

theorem Over.resolve_present (covered : t.Over corpus) (ordered : corpus.Ordered)
    (found : t.resolve corpus key = some (some location, v)) : ∃ s, corpus.get? location = some s := by
  generalize target : some location = node? at found
  cases resolves_of_resolve found with
  | innermost bare there => exact covered.present ordered (innermost?_mem there) target.symm
  | byId bare there => exact covered.present ordered (innermost?_mem there) target.symm
  | byName bare other there => exact covered.present ordered (innermost?_mem there) target.symm
  | fragment parts member resource lands => exact covered.lands_present ordered member (target ▸ lands)

end Table

namespace Derivation

variable {corpus : Corpus} {node location : Location} {t u : Table} {path : Path}

theorem Visits.scoped (visits : Visits corpus node t location u path) (housed : t.Housed) :
    u.Scoped location := by
  induction visits with
  | start =>
    refine ⟨housed.push_resource rfl, ?_⟩
    rw [startTable, Table.scope_eq (Table.resource?_push_resource rfl)]
    exact ⟨_, Table.mem_push.mpr (.inl rfl), rfl, rfl, Entry.encloses_node rfl⟩
  | step visits present event ih =>
    rcases Event.visit_cases event with ⟨-, resolved, -⟩ | ⟨step, -, rfl, rfl, -⟩ | ⟨index, rfl, rfl, -⟩
    · exact ih.enter.housed.resolve resolved
    · exact ih.enter.child step
    · exact (ih.enter.child .items).enter.child _

theorem Visits.over (visits : Visits corpus node t location u path)
    (covered : (startTable corpus node t).Over corpus) : u.Over corpus := by
  induction visits with
  | start => exact covered
  | step visits present event ih =>
    rcases Event.visit_cases event with ⟨-, resolved, -⟩ | ⟨-, -, -, rfl, -⟩ | ⟨-, -, rfl, -⟩
    · exact (ih.enter _).resolve resolved
    · exact ih.enter _
    · exact (ih.enter _).enter _

theorem startTable_over (ordered : corpus.Ordered) (built : t.Built corpus)
    (present : corpus.get? node = some s) : (startTable corpus node t).Over corpus := by
  rw [startTable, present]
  exact (built.over ordered).push (.resource present)

end Derivation

def Entry.Holds (corpus : Corpus) (r : Entry) (location : Location) : Prop :=
  ∃ home root steps s, r.node? = some home ∧ corpus.get? home = some root ∧ (steps, s) ∈ root.walk ∧
    location = ⟨home.document, home.steps ++ steps⟩

theorem Entry.Encloses.holds {corpus : Corpus} {r : Entry} {location : Location}
    (encloses : r.Encloses location) (present : corpus.get? location = some s) :
    r.Holds corpus location := by
  obtain ⟨home, steps, node, rfl⟩ := encloses
  rw [corpus.get?_append] at present
  obtain ⟨root, found, reached⟩ := bind_eq_some_iff.mp present
  exact ⟨home, root, steps, s, node, found, Schema.mem_walkFrom_of_at? [] reached, rfl⟩

namespace Derivation

/-- References stay in scope: wherever a derivation comes to, a reference leads into a resource that
has the id of the innermost one; and if no other resource has this id, into that one. -/
theorem resolve_inside {corpus : Corpus} {node location target : Location} {root : Schema}
    {documents : List Nat} {u v table : Table} {path : Path} {key : String}
    (ordered : corpus.Ordered) (present : corpus.get? node = some root)
    (visits : Visits corpus node (.ofDocuments corpus documents) location u path)
    (seen : table = u ∨ table = u.enter corpus location)
    (resolved : table.resolve corpus key = some (some target, v)) :
    ∃ r, v.resource? = some r ∧
      (∃ holder ∈ v.entries, holder.isResource = true ∧ holder.id = r.id ∧
      holder.Holds corpus target) ∧
      ((∀ e ∈ v.entries, e.isResource = true → e.id = r.id → e = r) → r.Holds corpus target) := by
  have inside : table.Scoped location ∧ table.Over corpus := by
    have inside := visits.scoped (Table.housed_ofDocuments documents)
    have covered := visits.over (startTable_over ordered (.ofDocuments documents) present)
    rcases seen with rfl | rfl
    · exact ⟨inside, covered⟩
    · exact ⟨inside.enter, covered.enter location⟩
  obtain ⟨s, there⟩ := inside.2.resolve_present ordered resolved
  obtain ⟨holder, member, resource, same, encloses⟩ := (inside.1.housed.resolve resolved).here
  cases innermost : v.resource? with
  | none => exact absurd resource (find?_eq_none.mp innermost holder (mem_reverse.mpr member))
  | some r =>
    rw [Table.scope_eq innermost] at same
    exact ⟨r, rfl, ⟨holder, member, resource, same, encloses.holds there⟩, fun unique =>
      unique holder member resource same ▸ encloses.holds there⟩

def borrower : Schema := .node { ref := "a#/$defs/x" }

def lender : Schema :=
  .node { id := "a", type := .one "string", defs? := some [("x", some (.node { ref := "#" }))] }

def twin : Schema := .node { id := "a", type := .one "number" }

theorem resolve_inside_lender :
    ∃ v r, (startTable #[borrower, lender] ⟨0, []⟩ (.ofDocuments #[borrower, lender] [1])).resolve
      #[borrower, lender] "a#/$defs/x" = some (some ⟨1, [.defs "x"]⟩, v) ∧ v.resource? = some r ∧
      r.Holds #[borrower, lender] ⟨1, [.defs "x"]⟩ := by
  have ordered : Corpus.Ordered #[borrower, lender] := .of_places (by decide +kernel)
  obtain ⟨v, resolved, unique⟩ :
      ∃ v, (startTable #[borrower, lender] ⟨0, []⟩ (.ofDocuments #[borrower, lender] [1])).resolve
      #[borrower, lender]
      "a#/$defs/x" = some (some ⟨1, [.defs "x"]⟩, v) ∧
        ∀ r, v.resource? = some r → ∀ e ∈ v.entries, e.isResource = true → e.id = r.id → e = r := by
    refine ⟨⟨[⟨"a", some "x", some ⟨1, [.defs "x"]⟩⟩, .resource "" ⟨0, []⟩,
      .resource "a" ⟨1, []⟩]⟩, by cbv, ?_⟩
    rintro r equal
    cases equal
    decide
  obtain ⟨r, innermost, -, holds⟩ := resolve_inside ordered rfl .start (.inl rfl) resolved
  exact ⟨v, r, resolved, innermost, holds (unique r innermost)⟩

/-- With two resources of one id, the definition of one is seen from the other. -/
theorem twin_taken :
    ∃ v, (startTable #[borrower, lender, twin] ⟨0, []⟩
      (.ofDocuments #[borrower, lender, twin] [1, 2])).resolve #[borrower, lender, twin]
      "a#/$defs/x" = some (some ⟨1, [.defs "x"]⟩, v) ∧ v.resource? = some (.resource "a" ⟨2, []⟩) ∧
      ¬ (Entry.resource "a" ⟨2, []⟩).Holds #[borrower, lender, twin] ⟨1, [.defs "x"]⟩ ∧
      run #[borrower, lender, twin] ⟨0, []⟩ (.ofDocuments #[borrower, lender, twin] [1, 2]) {}
      {} = .ok (⟨.ok (.number false), []⟩, {}) := by
  refine ⟨_, by cbv, by cbv, ?_, by cbv⟩
  rintro ⟨home, root, steps, s, node, -, -, equal⟩
  cases node
  cases equal

end Derivation

end JsonShape
