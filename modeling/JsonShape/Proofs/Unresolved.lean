import JsonShape.Proofs.Coverage
import JsonShape.Proofs.PathTokens

/-! References that lead nowhere. Each one that a derivation comes to is reported, with the
reference, its document and a path that leads to it, unless the path has gone astray. -/
namespace JsonShape
open List

def Issue.text? (issue : Issue) (name : String) : Option String :=
  match Entries.get? issue.params name with
  | some (.string text) => some text
  | _ => none

def Entry.LeadsTo (corpus : Corpus) (r : Entry) (pointer : String) (location : Location) : Prop :=
  ∃ home root steps, r.node? = some home ∧ corpus.get? home = some root ∧
    root.lookup? pointer = some steps ∧
    location = ⟨home.document, home.steps ++ steps⟩

def Entry.Charts (r : Entry) (path : Path) (location : Location) : Prop :=
  ∃ home steps, r.node? = some home ∧ Step.ofTokens? path.tokens = some steps ∧ Text.Tokens path.tokens ∧
    location = ⟨home.document, home.steps ++ steps⟩

namespace Entry

variable {corpus : Corpus} {r : Entry} {path : Path} {location : Location} {s : Schema}

theorem charts_root (node : r.node? = some location) : r.Charts .root location :=
  ⟨location, [], node, rfl, Text.tokens_nil, by rw [append_nil]⟩

theorem Charts.step (charts : r.Charts path location) (step : Step) (named : step.Named) :
    r.Charts (path.step step) (location.child step) := by
  obtain ⟨home, steps, node, read, plain, rfl⟩ := charts
  refine ⟨home, steps ++ [step], node, ?_, ?_, by rw [Location.child, append_assoc]⟩
  · rw [path.step_tokens named, Step.ofTokens?_append read, step.ofTokens?_tokens]
    rfl
  · rw [path.step_tokens named]
    intro token member
    rcases mem_append.mp member with member | member
    · exact plain token member
    · exact Step.tokens_plain named token member

theorem Charts.leadsTo (charts : r.Charts path location) (present : corpus.get? location = some s) :
    r.LeadsTo corpus path.way location := by
  obtain ⟨home, steps, node, read, plain, rfl⟩ := charts
  rw [corpus.get?_append] at present
  obtain ⟨root, found, reached⟩ := Option.bind_eq_some_iff.mp present
  refine ⟨home, root, steps, node, found, ?_, rfl⟩
  rw [Schema.lookup?, Step.ofPointer?_way plain, read]
  change (root.at? steps).bind _ = _
  rw [reached]
  rfl

end Entry

/-- How a reference spells the way to what it leads to: it is the id of a resource, with or without
a hash sign after it, or it ends in a pointer without empty tokens, which leads to the definition
that is found for it. -/
inductive Table.Spelled (corpus : Corpus) (table v : Table) (key : String) (target : Location) : Prop
  | id {base : List Char} (alone : Text.cut '#' key.toList = (base, none))
      (there : (table.resourceById? (String.ofList base)).isSome = true)
  | whole {base : List Char} (parts : Text.cut '#' key.toList = (base, some []))
  | pointer {base rest : List Char} (parts : Text.cut '#' key.toList = (base, some ('/' :: rest)))
      (full : rest = [] ∨ "" ∉ Text.split '/' (String.ofList rest))
      (agrees : ∀ r d, v.resource? = some r → table.pointedDefinition? r.id ('/' :: rest) = some d →
        r.LeadsTo corpus (String.ofList ('/' :: rest)) target)

namespace Derivation

variable {location : Location} {path : Path}

/-- A schema at which the path does not go astray: a resource is at the root, properties have names,
and a reference spells its way. -/
structure Straight (corpus : Corpus) (table : Table) (path : Path) (k : Keywords Schema) : Prop where
  resource : k.id ≠ "" → path = .root
  items : ∀ items, k.items? = some items → items.keywords.id = ""
  names : ∀ s?, ("", s?) ∉ k.properties?.getD []
  reference : k.ref ≠ "" → ∀ target v, table.resolve corpus k.ref = some (some target, v) →
      table.Spelled corpus v k.ref target

variable {corpus : Corpus} {node : Location} {t u v table : Table} {r : Entry} {key : String}
  {base rest : List Char}

theorem refPath_root (alone : Text.cut '#' key.toList = (base, none)) : refPath key = .root := by
  rw [refPath, alone]

theorem refPath_whole (parts : Text.cut '#' key.toList = (base, some [])) : refPath key = .root := by
  rw [refPath, parts]

theorem refPath_charts (parts : Text.cut '#' key.toList = (base, some ('/' :: rest)))
    (full : rest = [] ∨ "" ∉ Text.split '/' (String.ofList rest))
    (leads : r.LeadsTo corpus (String.ofList ('/' :: rest)) location) :
    r.Charts (refPath key) location := by
  obtain ⟨home, root, steps, node, -, found, rfl⟩ := leads
  obtain ⟨read, spelled, reached⟩ := Option.bind_eq_some_iff.mp found
  obtain ⟨-, -, ended⟩ := Option.bind_eq_some_iff.mp reached
  cases ended
  have tokens : (refPath key).tokens = (Text.split '/' (String.ofList rest)).filter (· != "") := by
    rw [refPath, parts]
    change (Text.split '/' (String.ofList ('/' :: rest))).filter (· != "") = _
    rw [Text.split, Text.split, String.toList_ofList, String.toList_ofList]
    rfl
  rcases full with rfl | full
  · cases spelled
    exact ⟨home, [], node, by rw [tokens]; rfl, by rw [tokens]; exact Text.tokens_nil, rfl⟩
  · have kept : (refPath key).tokens = Text.split '/' (String.ofList rest) := by
      rw [tokens, filter_eq_self]
      intro token member
      simpa using fun empty : token = "" => full (empty ▸ member)
    refine ⟨home, steps, node, ?_, ?_, rfl⟩
    · have longer : rest ≠ [] := by
        rintro rfl
        exact full mem_cons_self
      rw [kept, ← Step.ofPointer?_slash longer]
      exact spelled
    · rw [kept]
      exact fun token member => ⟨fun empty => full (empty ▸ member), Text.slash_not_mem_split member⟩

theorem Spelled.there {base : List Char} (spelled : table.Spelled corpus v key location)
    (bare : Text.cut '#' key.toList = (base, none)) :
    (table.resourceById? (String.ofList base)).isSome = true := by
  cases spelled with
  | id alone there =>
    cases bare.symm.trans alone
    exact there
  | whole parts => cases bare.symm.trans parts
  | pointer parts full agrees => cases bare.symm.trans parts

theorem Spelled.pointer_of_cut {c : Char} (spelled : table.Spelled corpus v key location)
    (parts : Text.cut '#' key.toList = (base, some (c :: rest))) :
    c = '/' ∧ (rest = [] ∨ "" ∉ Text.split '/' (String.ofList rest)) ∧ ∀ r d, v.resource? = some r →
      table.pointedDefinition? r.id ('/' :: rest) = some d →
      r.LeadsTo corpus (String.ofList ('/' :: rest)) location := by
  cases spelled with
  | id alone there => cases parts.symm.trans alone
  | whole parts' => cases parts.symm.trans parts'
  | pointer parts' full agrees =>
    cases parts.symm.trans parts'
    exact ⟨rfl, full, agrees⟩

theorem Spelled.charts (resolved : table.resolve corpus key = some (some location, v))
    (spelled : table.Spelled corpus v key location) :
    ∃ r, v.resource? = some r ∧ r.Charts (refPath key) location := by
  generalize target : some location = node? at resolved
  cases Table.resolves_of_resolve resolved with
  | innermost bare there => exact ⟨_, there, refPath_root bare ▸ Entry.charts_root target.symm⟩
  | byId bare there =>
    exact ⟨_, Table.resource?_push_resource (Table.resourceById?_test there).1, refPath_root bare ▸
      Entry.charts_root target.symm⟩
  | byName bare other there =>
    have named := Spelled.there spelled bare
    rw [other] at named
    cases named
  | fragment parts member resource lands =>
    have innermost := Table.resource?_push_resource (t := table) resource
    refine ⟨_, innermost, ?_⟩
    cases lands with
    | whole => exact refPath_whole parts ▸ Entry.charts_root target.symm
    | pointed there =>
      obtain ⟨-, full, agrees⟩ := Spelled.pointer_of_cut spelled parts
      exact refPath_charts parts full (agrees _ _ innermost there)
    | way other node present found =>
      obtain ⟨-, full, -⟩ := Spelled.pointer_of_cut spelled parts
      cases target
      exact refPath_charts parts full ⟨_, _, _, node, present, found, rfl⟩
    | named other there => exact absurd (Spelled.pointer_of_cut spelled parts).1 other

theorem charts_enter (innermost : v.resource? = some r) (charts : r.Charts path location)
    (straight : ∀ s, corpus.get? location = some s → s.keywords.id ≠ "" → path = .root) :
    ∃ r, (v.enter corpus location).resource? = some r ∧ r.Charts path location := by
  unfold Table.enter
  cases present : corpus.get? location with
  | none => exact ⟨r, innermost, charts⟩
  | some s =>
    rw [Table.resource?_enterSchema]
    split_ifs with own
    · exact ⟨r, innermost, charts⟩
    · rw [straight s present own]
      exact ⟨_, rfl, Entry.charts_root rfl⟩

theorem way_named {k : Keywords Schema} (straight : Straight corpus table path k) {step : Step}
    (way : Event.Way k step) : step.Named := by
  cases step with
  | property name =>
    rintro rfl
    obtain ⟨s?, listed⟩ := way
    exact straight.names s? listed
  | defs name => cases way
  | definitions name => cases way
  | _ => trivial

theorem Visits.charts
    (straight : ∀ location u path s, Visits corpus node t location u path →
      corpus.get? location = some s → Straight corpus (u.enter corpus location) path s.keywords)
    (visits : Visits corpus node t location u path) :
    ∃ r, (u.enter corpus location).resource? = some r ∧ r.Charts path location := by
  have own : ∀ {location u path}, Visits corpus node t location u path →
      ∀ s, corpus.get? location = some s → s.keywords.id ≠ "" → path = .root :=
    fun visits s present => (straight _ _ _ s visits present).resource
  induction visits with
  | start =>
    exact charts_enter (Table.resource?_push_resource rfl) (Entry.charts_root rfl) fun _ _ _ => rfl
  | step visits present event ih =>
    obtain ⟨r, innermost, charts⟩ := ih
    have here := straight _ _ _ _ visits present
    have next := own (.step visits present event)
    rcases Event.visit_cases event with ⟨refers, resolved, rfl⟩ | ⟨step, way, rfl, rfl, rfl⟩ |
      ⟨index, rfl, rfl, rfl⟩
    · obtain ⟨r, innermost, charts⟩ := Spelled.charts resolved (here.reference refers _ _ resolved)
      exact charts_enter innermost charts next
    · exact charts_enter innermost (charts.step step (way_named here way)) next
    · obtain ⟨r, innermost, charts⟩ :=
        charts_enter innermost (charts.step .items trivial) fun s found named => by
        rw [corpus.get?_child, present] at found
        exact absurd (here.items s found) named
      exact charts_enter innermost (charts.step (.oneOf index) trivial) next

/-- Documents that have the same reference at the same path do not both have it lead nowhere. -/
def Apart (corpus : Corpus) (node : Location) (t : Table) : Prop :=
  ∀ location table path location' table' path' key, Lost corpus node t location table path key →
    Lost corpus node t location' table' path' key →
    path.way = path'.way → table.scope = table'.scope

variable {options : Options}

theorem mark_inj {code : Code} {path path' hint hint' : String} (free : NulFree hint)
    (free' : NulFree hint') (equal : mark code path hint = mark code path' hint') :
    path = path' ∧ hint = hint' := by
  have chars := congrArg String.toList equal
  rw [mark_toList, mark_toList] at chars
  have ends := (cons.inj (append_cancel_left chars)).2
  -- read from the end, the hint stops at the first joining character
  have reversed := congrArg reverse ends
  simp only [reverse_append, reverse_cons, append_assoc, singleton_append] at reversed
  obtain ⟨hints, paths⟩ := append_mark_inj (fun member => free (mem_reverse.mp member))
    (fun member => free' (mem_reverse.mp member)) reversed
  exact ⟨String.toList_inj.mp (reverse_injective paths), String.toList_inj.mp (reverse_injective hints)⟩

theorem unresolvedIssue_params (path : Path) (key : String) (table : Table) :
    (Outline.unresolvedIssue path key table).text? "ref" = some key ∧
      (Outline.unresolvedIssue path key table).text? "document" = some table.scope := by
  simp [Issue.text?, Outline.unresolvedIssue, Issue.atPath, Entries.get?_ofList]

theorem Lost.nulFree (lost : Lost corpus node t location table path key)
    (free : ∀ location s, corpus.get? location = some s → NulFree s.keywords.ref) : NulFree key := by
  cases lost with
  | lost visits present other refers nowhere => exact free _ _ present

theorem runTour_backed (lenient : options.failFast = false)
    (whole : (runTour corpus node t options).whole = true) :
    Backed corpus node t (runTour corpus node t options) ∧
      (runTour corpus node t options).opened = [] ∧
      (Event.visit (some node) (startTable corpus node t) .root).Done corpus
      (runTour corpus node t options) := by
  have start : Backed corpus node t .start := ⟨nofun, nofun, nofun⟩
  have visits : ∀ location, some node = some location →
      Visits corpus node t location (startTable corpus node t) .root := by
    rintro _ ⟨⟩
    exact .start
  obtain ⟨backed, done⟩ := tour_covers lenient _ _ _ _ _ start rfl whole visits
  exact ⟨backed, ((Outline.extends_stepwise lenient).tour _ _ _ _ _).opened, done⟩

/-- Every reference that leads nowhere is reported, and nothing else as one. The issue names the
reference, and its document unless another one has the same reference at the same path. Its path
leads there from the document, unless some path goes astray. -/
theorem run_tells_lost {root : Schema} (ordered : corpus.Ordered) (free : corpus.NulFree)
    (refs : ∀ location s, corpus.get? location = some s → NulFree s.keywords.ref)
    (documents : corpus.DocumentConstants) (built : t.Built corpus)
    (present : corpus.get? node = some root)
    (single : ∀ location u path, Visits corpus node t location u path →
      (u.enter corpus location).OneOwner) (lenient : options.failFast = false) (g : Graph) :
    ∃ o g', run corpus node t options g = .ok (o, g') ∧
      (∀ issue ∈ o.issues, issue.code = .unresolvedRef → ∃ location table path key,
      Lost corpus node t location table path key ∧ issue = Outline.unresolvedIssue path key table) ∧
      ∀ location table path key, Lost corpus node t location table path key → ∃ issue ∈ o.issues,
      issue.code = .unresolvedRef ∧ issue.text? "ref" = some key ∧
      (Apart corpus node t → issue.text? "document" = some table.scope) ∧
      ((∀ location u path s, Visits corpus node t location u path → corpus.get? location = some s →
      Straight corpus (u.enter corpus location) path s.keywords) → ∃ r way,
      table.resource? = some r ∧ issue.path = way ++ "/$ref" ∧ r.LeadsTo corpus way location) := by
  obtain ⟨o, g', ran, issues, -, whole⟩ := run_tour documents node options g
  obtain ⟨backed, closed, start⟩ := runTour_backed lenient whole
  have covered := startTable_over ordered built present
  refine ⟨o, g', ran, fun issue member code => ?_, fun location table path key lost => ?_⟩
  · rcases backed.founded issue (issues ▸ member) with other | founded
    · cases code.symm.trans other
    · exact founded
  · obtain ⟨table', path', lost', alike, issue, member, same⟩ :=
      backed.lost covered free single closed start lost
    rcases backed.founded issue member with code | ⟨location₁, table₁, path₁, key₁, lost₁, rfl⟩
    · rw [code] at same
      exact absurd same.symm (mark_codes_ne _ _ _ _)
    · obtain ⟨paths, rfl⟩ := mark_inj (lost₁.nulFree refs) (lost'.nulFree refs) same
      have paths : (path₁.field "$ref").pointer = (path'.field "$ref").pointer := paths
      refine ⟨_, issues ▸ member, rfl, (unresolvedIssue_params _ _ _).1, fun apart => ?_,
        fun straight => ?_⟩
      · have ways : path₁.way = path'.way := by
          rw [path₁.field_ref_pointer, path'.field_ref_pointer] at paths
          simpa using paths
        rw [alike.scope, ← apart _ _ _ _ _ _ _ lost₁ lost' ways]
        exact (unresolvedIssue_params _ _ _).2
      · cases lost' with
        | lost visits present =>
          obtain ⟨r, innermost, charts⟩ := Visits.charts straight visits
          exact ⟨r, path'.way, alike.resource.trans innermost, paths.trans path'.field_ref_pointer,
            charts.leadsTo present⟩

def eventsAt (corpus : Corpus) (place : Location × Table × Path) : List Event :=
  match corpus.get? place.1 with
  | none => []
  | some s => Event.ofSchema corpus place.1 (place.2.1.enter corpus place.1) place.2.2 s.keywords

/-- Places that are closed under visits. -/
def closedPlaces (corpus : Corpus) (places : List (Location × Table × Path)) : Bool :=
  places.all fun place => (eventsAt corpus place).all fun
    | .visit (some next) v way => places.contains (next, v, way)
    | _ => true

/-- Places of which each is visited from a later one in the list, or is the start. -/
def chainedPlaces (corpus : Corpus) (start : Location × Table × Path) :
    List (Location × Table × Path) → Bool
  | [] => true
  | place :: earlier =>
    (place == start || earlier.any fun before =>
      (eventsAt corpus before).contains (.visit place.1 place.2.1 place.2.2)) &&
    chainedPlaces corpus start earlier

variable {places : List (Location × Table × Path)}

theorem Visits.mem_places (start : (node, startTable corpus node t, .root) ∈ places)
    (closed : closedPlaces corpus places = true) (visits : Visits corpus node t location u path) :
    (location, u, path) ∈ places := by
  induction visits with
  | start => exact start
  | step visits present event ih =>
    have here := all_eq_true.mp closed _ ih
    simp only [eventsAt, present] at here
    simpa using all_eq_true.mp here _ event

theorem Visits.of_mem_places
    (chained : chainedPlaces corpus (node, startTable corpus node t, .root) places = true)
    (member : (location, u, path) ∈ places) : Visits corpus node t location u path := by
  induction places generalizing location u path with
  | nil => cases member
  | cons place earlier ih =>
    simp only [chainedPlaces, Bool.and_eq_true, Bool.or_eq_true, beq_iff_eq, any_eq_true,
      contains_iff_mem] at chained
    obtain ⟨here, later⟩ := chained
    rcases mem_cons.mp member with rfl | member
    · rcases here with same | ⟨⟨l, v, way⟩, inside, event⟩
      · cases same
        exact .start
      · cases present : corpus.get? l with
        | none => simp [eventsAt, present] at event
        | some s =>
          simp only [eventsAt, present] at event
          exact .step (ih later inside) present event
    · exact ih later member

def parcel : Schema := .node {
  id := "parcel"
  type := .one "object"
  properties? := some [("label", some (.node { ref := "labels#/$defs/label" })),
      ("sender", some (.node { ref := "person" }))] }

def labels : Schema := .node {
  id := "labels"
  defs? :=
    some
    [("label", some (.node
    { type := .one "object", properties? := some [("author", some (.node { ref := "person" }))] }))]
    }

def stationery : Corpus := #[parcel, labels]

def parcelTable : Table :=
  ⟨[.resource "labels" ⟨1, []⟩, ⟨"labels", some "label", some ⟨1, [.defs "label"]⟩⟩,
  .resource "parcel" ⟨0, []⟩]⟩

def labelTable : Table :=
  ⟨[⟨"labels", some "label", some ⟨1, [.defs "label"]⟩⟩, .resource "parcel" ⟨0, []⟩,
  .resource "labels" ⟨1, []⟩]⟩

def stationeryPlaces : List (Location × Table × Path) :=
  [(⟨0, []⟩, parcelTable, .root), (⟨0, [.property "label"]⟩, parcelTable, ⟨["properties", "label"]⟩),
    (⟨0, [.property "sender"]⟩, parcelTable, ⟨["properties", "sender"]⟩),
    (⟨1, [.defs "label"]⟩, labelTable, ⟨["$defs", "label"]⟩),
    (⟨1, [.defs "label", .property "author"]⟩, labelTable, ⟨["$defs", "label", "properties", "author"]⟩)]

theorem mem_stationeryPlaces
    (visits : Visits stationery ⟨0, []⟩ (.ofDocuments stationery [1]) location u path) :
    (location, u, path) ∈ stationeryPlaces :=
  visits.mem_places (by decide +kernel) (by decide +kernel)

theorem stationery_straight (location : Location) (u : Table) (path : Path) (s : Schema)
    (visits : Visits stationery ⟨0, []⟩ (.ofDocuments stationery [1]) location u path)
    (present : stationery.get? location = some s) :
    Straight stationery (u.enter stationery location) path s.keywords := by
  have known : ∀ place ∈ stationeryPlaces, ∀ s ∈ stationery.get? place.1,
      (s.keywords.id ≠ "" → place.2.2 = .root) ∧
      s.keywords.items?.isNone ∧ "" ∉ (s.keywords.properties?.getD []).map (·.1) ∧
      (s.keywords.ref ≠ "" → (place.2.1.enter stationery place.1).resolve stationery
      s.keywords.ref = none ∨
        s.keywords.ref = "labels#/$defs/label" ∧
          (place.2.1.enter stationery place.1).resolve stationery s.keywords.ref =
          some (some ⟨1, [.defs "label"]⟩, labelTable)) := by
    decide +kernel
  obtain ⟨id, items, names, ref⟩ := known _ (mem_stationeryPlaces visits) s present
  refine ⟨id, fun _ found => ?_, fun s? member =>
    names (mem_map_of_mem member), fun refers target v found => ?_⟩
  · rw [found] at items
    cases items
  rcases ref refers with nowhere | ⟨key, resolved⟩
  · cases nowhere.symm.trans found
  · obtain ⟨targets, rfl⟩ := Prod.mk.inj (Option.some.inj (found.symm.trans resolved))
    obtain rfl := Option.some.inj targets
    have parts : Text.cut '#' "labels#/$defs/label".toList =
        ("labels".toList, some ('/' :: "$defs/label".toList)) := by decide
    rw [key]
    refine .pointer parts (.inr (by decide)) fun r d innermost _ => ?_
    obtain rfl : .resource "labels" ⟨1, []⟩ = r := Option.some.inj innermost
    exact ⟨⟨1, []⟩, labels, [.defs "label"], rfl, rfl, by decide +kernel, rfl⟩

theorem stationery_apart : Apart stationery ⟨0, []⟩ (.ofDocuments stationery [1]) := by
  have known : ∀ place ∈ stationeryPlaces, ∀ other ∈ stationeryPlaces, place.2.2.way = other.2.2.way →
      (place.2.1.enter stationery place.1).scope = (other.2.1.enter stationery other.1).scope := by
        decide +kernel
  have inside : ∀ {location table path key}, Lost stationery ⟨0, []⟩ (.ofDocuments stationery [1])
      location table path key →
      ∃ place ∈ stationeryPlaces, table = place.2.1.enter stationery place.1 ∧ path = place.2.2 := by
    rintro _ _ _ _ ⟨visits⟩
    exact ⟨_, mem_stationeryPlaces visits, rfl, rfl⟩
  intro location table path location' table' path' key lost lost'
  obtain ⟨place, member, rfl, rfl⟩ := inside lost
  obtain ⟨other, member', rfl, rfl⟩ := inside lost'
  exact known place member other member'

theorem author_lost :
    Lost stationery ⟨0, []⟩ (.ofDocuments stationery [1]) ⟨1, [.defs "label", .property "author"]⟩
      labelTable ⟨["$defs", "label", "properties", "author"]⟩ "person" := by
  have author : Visits stationery ⟨0, []⟩ (.ofDocuments stationery [1])
      ⟨1, [.defs "label", .property "author"]⟩ labelTable
      ⟨["$defs", "label", "properties", "author"]⟩ :=
    .of_mem_places (show chainedPlaces _ _ stationeryPlaces.reverse = true by decide +kernel) mem_cons_self
  have entered : labelTable.enter stationery ⟨1, [.defs "label", .property "author"]⟩ =
      labelTable := by decide +kernel
  have lost := Lost.lost author (s := .node { ref := "person" }) rfl rfl (by decide) (by decide +kernel)
  rwa [entered] at lost

theorem run_tells_lost_stationery :
    ∃ o g', run stationery ⟨0, []⟩ (.ofDocuments stationery [1]) {} {} = .ok (o, g') ∧
      ∃ issue ∈ o.issues, issue.code = .unresolvedRef ∧ issue.text? "ref" = some "person" ∧
      issue.text? "document" = some "labels" ∧ ∃ r way, labelTable.resource? = some r ∧
      issue.path = way ++ "/$ref" ∧
      r.LeadsTo stationery way ⟨1, [.defs "label", .property "author"]⟩ := by
  have ordered : stationery.Ordered := .of_places (by decide +kernel)
  have refs : ∀ place ∈ stationery.places, NulFree place.2.keywords.ref := by decide +kernel
  have single : ∀ place ∈ stationeryPlaces, (place.2.1.enter stationery place.1).OneOwner := by
    decide +kernel
  obtain ⟨o, g', ran, -, told⟩ := run_tells_lost ordered (.of_places (by decide +kernel))
      (fun _ _ present => refs _ (Corpus.mem_places present))
    (.of_none (by decide +kernel)) (.ofDocuments [1]) (show _ = some parcel from rfl)
    (fun _ _ _ visits => single _ (mem_stationeryPlaces visits))
    (show ({} : Options).failFast = false from rfl) {}
  obtain ⟨issue, member, code, ref, document, leads⟩ := told _ _ _ _ author_lost
  have scope : labelTable.scope = "labels" := by decide
  exact ⟨o, g', ran, issue, member, code, ref, scope ▸ document stationery_apart,
    leads stationery_straight⟩

def echoed : Schema :=
  .node
  { id := "b", type := .one "object", properties? := some [("x", some (.node { ref := "nope" }))] }

def echoing : Schema := .node {
  id := "a"
  type := .one "object"
  properties? := some [("x", some (.node { ref := "nope" })), ("y", some (.node { ref := "b" }))] }

/-- Both documents have the reference at one path; it is reported for one of them only. -/
theorem echo_unheard :
    ∃ table path o g, Lost #[echoing, echoed] ⟨0, []⟩ (.ofDocuments #[echoing, echoed] [1])
      ⟨1, [.property "x"]⟩ table path "nope" ∧ table.scope = "b" ∧
      run #[echoing, echoed] ⟨0, []⟩ (.ofDocuments #[echoing, echoed] [1]) {} {} = .ok (o, g) ∧
      o.issues.map (fun issue => (issue.path, issue.text? "document")) =
      [("/properties/x/$ref", some "a")] := by
  let tables : Table := ⟨[.resource "a" ⟨0, []⟩, .resource "b" ⟨1, []⟩]⟩
  have chained : chainedPlaces #[echoing, echoed]
      (⟨0, []⟩, startTable #[echoing, echoed] ⟨0, []⟩ (.ofDocuments #[echoing, echoed] [1]), .root)
      [(⟨1, [.property "x"]⟩, tables, ⟨["properties", "x"]⟩), (⟨1, []⟩, tables, .root),
        (⟨0, [.property "y"]⟩, ⟨[.resource "b" ⟨1, []⟩, .resource "a" ⟨0, []⟩]⟩, ⟨["properties", "y"]⟩),
        (⟨0, []⟩, startTable #[echoing, echoed] ⟨0, []⟩ (.ofDocuments #[echoing, echoed] [1]),
        .root)] = true := by decide +kernel
  obtain ⟨o, g, ran, told⟩ :
      ∃ o g, run #[echoing, echoed] ⟨0, []⟩ (.ofDocuments #[echoing, echoed] [1]) {}
      {} = .ok (o, g) ∧
      o.issues.map (fun issue => (issue.path, issue.text? "document")) =
      [("/properties/x/$ref", some "a")] := exists_of_evaluated (by decide +kernel)
  exact ⟨_, _, o, g, .lost (.of_mem_places chained mem_cons_self) (s := .node { ref := "nope" }) rfl
    rfl (by decide) (by decide +kernel), by decide +kernel, ran, told⟩

end Derivation

end JsonShape
