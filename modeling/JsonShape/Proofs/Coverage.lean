import JsonShape.Proofs.Scoping

/-! Coverage of derivations. A derivation comes to every schema that there is a way to, or to the
same schema with a table that resolves alike: when it ends, the keys it knows are closed under the
events. -/
namespace JsonShape
open List Option

namespace Derivation

variable {e : Event} {options : Options} {events : List Event}

inductive Lost (corpus : Corpus) (node : Location) (t : Table) : Location → Table → Path → String → Prop
  | lost {location : Location} {u : Table} {path : Path} {s : Schema}
      (visits : Visits corpus node t location u path)
      (present : corpus.get? location = some s) (other : s.keywords.boolean? = none)
      (refers : s.keywords.ref ≠ "")
      (nowhere : (u.enter corpus location).resolve corpus s.keywords.ref = none) :
      Lost corpus node t location (u.enter corpus location) path s.keywords.ref

theorem enter_eq {corpus : Corpus} {location : Location} {s : Schema}
    (present : corpus.get? location = some s) (u : Table) :
    u.enter corpus location = u.enterSchema s.keywords location u.scope := by
  rw [Table.enter, present]

namespace Outline

structure Extends (o o' : Outline) : Prop where
  issues : o.issues ⊆ o'.issues
  known : o.known ⊆ o'.known
  opened : o'.opened = o.opened
  stopped : o'.stopped = o.stopped
  whole : o'.whole = true → o.whole = true

theorem report_extends (lenient : options.failFast = false) (issue : Issue) (o : Outline) :
    Extends o (o.report options issue) := by
  unfold report
  split_ifs
  · exact ⟨fun _ => id, fun _ => id, rfl, rfl, id⟩
  · exact ⟨subset_append_left _ _, fun _ => id, rfl, by simp [lenient], id⟩

theorem extends_stepwise (lenient : options.failFast = false) : Stepwise options Extends where
  refl _ := ⟨fun _ => id, fun _ => id, rfl, rfl, id⟩
  trans first second := ⟨Subset.trans first.issues second.issues, Subset.trans first.known second.known,
    second.opened.trans first.opened, second.stopped.trans first.stopped, first.whole ∘ second.whole⟩
  report o issue _ := report_extends lenient issue o
  warn _ _ := ⟨fun _ => id, fun _ => id, rfl, rfl, id⟩
  cut _ := ⟨fun _ => id, fun _ => id, rfl, rfl, nofun⟩
  close _ _ _ grown :=
    ⟨grown.issues, fun _ member => mem_cons_of_mem _ (grown.known member),
      congrArg (drop 1) grown.opened, grown.stopped, grown.whole⟩

end Outline

open Outline

variable {corpus : Corpus} {node : Location} {t : Table} {o o' : Outline}

def Event.Done (corpus : Corpus) (o : Outline) : Event → Prop
  | .visit location? u _ => ∀ location s, location? = some location → corpus.get? location = some s →
    keyOf s location u ∈ o.opened ∨ keyOf s location u ∈ o.known
  | .malformed _ _ => True
  | .unresolved path key _ =>
    ∃ issue ∈ o.issues, mark issue.code issue.path issue.hint = mark .unresolvedRef
      (path.field "$ref").pointer key

theorem Event.Done.mono (done : e.Done corpus o) (issues : o.issues ⊆ o'.issues)
    (settled : ∀ key, key ∈ o.opened ∨ key ∈ o.known → key ∈ o'.opened ∨ key ∈ o'.known) :
    e.Done corpus o' := by
  cases e with
  | visit location? u path => exact fun location s here present => settled _ (done location s here present)
  | malformed path message => trivial
  | unresolved path key u =>
    obtain ⟨issue, member, same⟩ := done
    exact ⟨issue, issues member, same⟩

theorem Outline.Extends.done (grown : Extends o o') (done : e.Done corpus o) : e.Done corpus o' :=
  done.mono grown.issues fun _ => Or.imp (fun member => grown.opened ▸ member) fun member =>
    grown.known member

/-- An outline in the middle of a tour: what has been reported is an issue, an issue is about a
reference that leads nowhere or a combinator, and the events of known keys have been dealt with. -/
structure Backed (corpus : Corpus) (node : Location) (t : Table) (o : Outline) : Prop where
  kept : ∀ m ∈ o.reported, ∃ issue ∈ o.issues, mark issue.code issue.path issue.hint = m
  founded : ∀ issue ∈ o.issues, issue.code = .unsupportedCombinator ∨
    ∃ location table path key, Lost corpus node t location table path key ∧
    issue = unresolvedIssue path key table
  closed : ∀ k ∈ o.known, ∃ location u path s, Visits corpus node t location u path ∧
      corpus.get? location = some s ∧ k = keyOf s location u ∧
    ∀ e ∈ Event.ofSchema corpus location (u.enter corpus location) path s.keywords, e.Done corpus o

theorem Backed.report (backed : Backed corpus node t o) (lenient : options.failFast = false)
    {issue : Issue}
    (founded : issue.code = .unsupportedCombinator ∨ ∃ location table path key,
      Lost corpus node t location table path key ∧ issue = unresolvedIssue path key table) :
    Backed corpus node t (o.report options issue) ∧ ∃ same ∈ (o.report options issue).issues,
      mark same.code same.path same.hint = mark issue.code issue.path issue.hint := by
  have grown := report_extends lenient issue o
  unfold Outline.report at grown ⊢
  split_ifs at grown ⊢ with told
  · exact ⟨backed, backed.kept _ told⟩
  · refine ⟨⟨fun m member => ?_, fun other member => ?_, fun k member => ?_⟩, issue,
      mem_append_right _ mem_cons_self, rfl⟩
    · rcases mem_cons.mp member with rfl | member
      · exact ⟨issue, mem_append_right _ mem_cons_self, rfl⟩
      · obtain ⟨old, inside, same⟩ := backed.kept m member
        exact ⟨old, mem_append_left _ inside, same⟩
    · rcases mem_append.mp member with member | member
      · exact backed.founded other member
      · exact mem_singleton.mp member ▸ founded
    · obtain ⟨location, u, path, s, visits, present, same, done⟩ := backed.closed k member
      exact ⟨location, u, path, s, visits, present, same, fun e inside => grown.done (done e inside)⟩

def Covers (corpus : Corpus) (node : Location) (t : Table)
    (visit : Option Location → Table → Path → Outline → Outline) : Prop :=
  ∀ location? u path o, Backed corpus node t o → o.stopped = false →
    (visit location? u path o).whole = true →
    (∀ location, location? = some location → Visits corpus node t location u path) →
    Backed corpus node t (visit location? u path o) ∧
    (Event.visit location? u path).Done corpus (visit location? u path o)

variable {visit : Option Location → Table → Path → Outline → Outline} {location : Location}
  {u : Table} {path : Path} {s : Schema}

theorem follow_covers (lenient : options.failFast = false) (covers : Covers corpus node t visit)
    (backed : Backed corpus node t o) (going : o.stopped = false)
    (whole : (o.follow options visit e).whole = true)
    (visits : Visits corpus node t location u path) (present : corpus.get? location = some s)
    (arises : e ∈ Event.ofSchema corpus location (u.enter corpus location) path s.keywords) :
    Backed corpus node t (o.follow options visit e) ∧ e.Done corpus (o.follow options visit e) := by
  cases e with
  | visit location? v way =>
    exact covers location? v way o backed going whole fun next here => .step visits present (here ▸ arises)
  | malformed way message =>
    unfold Outline.follow
    split_ifs with strict
    · exact ⟨(backed.report lenient (.inl rfl)).1, trivial⟩
    · exact ⟨⟨backed.kept, backed.founded, backed.closed⟩, trivial⟩
  | unresolved way key table =>
    cases Event.mem_ofSchema arises with
    | lost other refers nowhere =>
      exact backed.report lenient (.inr ⟨_, _, _, _, .lost visits present other refers nowhere, rfl⟩)

theorem foldl_follow_covers (lenient : options.failFast = false)
    (grows : ∀ location? u path o, Extends o (visit location? u path o))
    (covers : Covers corpus node t visit) (visits : Visits corpus node t location u path)
    (present : corpus.get? location = some s)
    (arise : events ⊆ Event.ofSchema corpus location (u.enter corpus location) path s.keywords)
    (backed : Backed corpus node t o) (going : o.stopped = false)
    (whole : (events.foldl (follow options visit) o).whole = true) :
    Backed corpus node t (events.foldl (follow options visit) o) ∧
      ∀ e ∈ events, e.Done corpus (events.foldl (follow options visit) o) := by
  induction events generalizing o with
  | nil => exact ⟨backed, nofun⟩
  | cons e rest ih =>
    have first := (extends_stepwise lenient).follow grows o e
    have later := (extends_stepwise lenient).foldl grows rest (o.follow options visit e)
    obtain ⟨backed, done⟩ :=
      follow_covers lenient covers backed going (later.whole whole) visits present
      (arise mem_cons_self)
    obtain ⟨backed, others⟩ :=
      ih (fun x member => arise (mem_cons_of_mem _ member)) backed (first.stopped.trans going) whole
    refine ⟨backed, fun x member => ?_⟩
    rcases mem_cons.mp member with rfl | member
    · exact later.done done
    · exact others x member

theorem closing_settled {key : Key} {keys : List Key} (opened : o.opened = key :: keys) :
    ∀ k, k ∈ o.opened ∨ k ∈ o.known → k ∈ o.opened.drop 1 ∨ k ∈ key :: o.known := by
  rintro k (open_ | known)
  · rw [opened] at open_ ⊢
    rcases mem_cons.mp open_ with rfl | older
    · exact .inr mem_cons_self
    · exact .inl older
  · exact .inr (mem_cons_of_mem _ known)

theorem tour_covers (lenient : options.failFast = false) (budget : Nat) :
    Covers corpus node t (tour corpus options budget) := by
  induction budget with
  | zero => exact fun location? u path o backed going whole visits => nomatch whole
  | succ budget ih =>
    intro location? u path o backed going whole visits
    cases found : location?.bind corpus.get? with
    | none =>
      rw [tour_absent found]
      refine ⟨backed, fun location s here present => ?_⟩
      subst here
      exact nomatch found.symm.trans present
    | some s =>
      obtain ⟨location, rfl, present⟩ := bind_eq_some_iff.mp found
      have done : ∀ {o' : Outline}, keyOf s location u ∈ o'.opened ∨ keyOf s location u ∈ o'.known →
          (Event.visit (some location) u path).Done corpus o' := by
        rintro o' settled _ s' ⟨⟩ present'
        obtain rfl := some.inj (present.symm.trans present')
        exact settled
      by_cases met : keyOf s location u ∈ o.opened ∨ keyOf s location u ∈ o.known
      · rw [tour_met present (.inr met)]
        exact ⟨backed, done met⟩
      · push Not at met
        rw [tour_new present going met.1 met.2] at whole ⊢
        rw [← enter_eq present] at whole ⊢
        set events := Event.ofSchema corpus location (u.enter corpus location) path s.keywords with named
        have opening : Backed corpus node t { o with opened := keyOf s location u :: o.opened } :=
          ⟨backed.kept, backed.founded, fun k member => by
            obtain ⟨l, v, p, s', visits, there, same, done⟩ := backed.closed k member
            exact ⟨l, v, p, s', visits, there, same, fun e inside =>
              (done e inside).mono (fun _ => id) fun _ => Or.imp_left (mem_cons_of_mem _)⟩⟩
        obtain ⟨inner, each⟩ :=
          foldl_follow_covers lenient ((extends_stepwise lenient).tour budget) ih
          (visits location rfl) present (fun _ => id) opening going whole
        have opened : (events.foldl (follow options (tour corpus options budget))
            { o with opened := keyOf s location u :: o.opened }).opened =
            keyOf s location u :: o.opened :=
              ((extends_stepwise lenient).foldl ((extends_stepwise lenient).tour budget)
              events _).opened
        have settled := closing_settled opened
        refine ⟨⟨inner.kept, inner.founded, fun k member => ?_⟩, done (.inr mem_cons_self)⟩
        rcases mem_cons.mp member with rfl | member
        · exact ⟨location, u, path, s, visits location rfl, present, rfl, fun e inside =>
            (each e inside).mono (fun _ => id) settled⟩
        · obtain ⟨l, v, p, s', visits, there, same, done⟩ := inner.closed k member
          exact ⟨l, v, p, s', visits, there, same, fun e inside =>
            (done e inside).mono (fun _ => id) settled⟩

inductive Event.Alike : Event → Event → Prop
  | visit {location? : Option Location} {u u' : Table} {path path' : Path}
      (alike : location?.isSome = true → u.Alike u') :
    Alike (.visit location? u path) (.visit location? u' path')
  | malformed {path path' : Path} {message : String} :
      Alike (.malformed path message) (.malformed path' message)
  | unresolved {path path' : Path} {key : String} {u u' : Table} (alike : u.Alike u') :
      Alike (.unresolved path key u) (.unresolved path' key u')

namespace Event

variable {table table' : Table} {path' : Path} {k : Keywords Schema}

theorem ofEach_alike (alike : table.Alike table') (step : Nat → Step)
    (list : List (Option Schema)) :
    Forall₂ Event.Alike (ofEach location table step path list)
      (ofEach location table' step path' list) := by
  rw [ofEach, ofEach, forall₂_map_left_iff, forall₂_map_right_iff, forall₂_same]
  exact fun _ _ => .visit fun _ => alike

theorem ofItems_alike (alike : table.Alike table') :
    Forall₂ Event.Alike (ofItems corpus location table path k)
      (ofItems corpus location table' path' k) := by
  unfold ofItems
  cases k.items? with
  | none => exact .nil
  | some items =>
    dsimp only
    cases (if isBareOneOf items.keywords then items.keywords.oneOf? else none) with
    | none => exact .cons (.visit fun _ => alike) .nil
    | some alternatives => exact ofEach_alike (alike.enter _) _ _

theorem ofExtra_alike (alike : table.Alike table') :
    Forall₂ Event.Alike (ofExtra location table path k) (ofExtra location table' path' k) := by
  unfold ofExtra
  cases k.additionalProperties? with
  | none => exact .nil
  | some s =>
    dsimp only
    split_ifs
    · exact .nil
    · exact .cons (.visit fun _ => alike) .nil

theorem ofProperties_alike (alike : table.Alike table') (entries : List (String × Option Schema)) :
    Forall₂ Event.Alike (ofProperties location table path entries)
      (ofProperties location table' path' entries) := by
  rw [ofProperties, ofProperties, forall₂_map_left_iff, forall₂_map_right_iff, forall₂_same]
  exact fun _ _ => .visit fun _ => alike

theorem complaint?_alike (path path' : Path) (k : Keywords Schema) :
    Rel Event.Alike (complaint? path k) (complaint? path' k) := by
  unfold complaint?
  cases k.properties? with
  | none =>
    dsimp only
    split_ifs
    · exact .some .malformed
    · exact .none
  | some entries =>
    dsimp only
    cases k.anyOf?.bind fun branches => undeclared? (entries.map (·.1)) branches.zipIdx with
    | none => exact .none
    | some odd => exact .some .malformed

theorem ofObject_alike (alike : table.Alike table') :
    Forall₂ Event.Alike (ofObject location table path k) (ofObject location table' path' k) := by
  refine rel_append (rel_append (ofExtra_alike alike) (ofProperties_alike alike _)) ?_
  have complaints := complaint?_alike path path' k
  revert complaints
  generalize complaint? path k = first, complaint? path' k = second
  intro complaints
  cases complaints with
  | some same => exact .cons same .nil
  | none => exact rel_append (ofEach_alike alike _ _) (ofEach_alike alike _ _)

theorem ofType_alike (alike : table.Alike table') (name : String) :
    Forall₂ Event.Alike (ofType corpus location table path k name)
      (ofType corpus location table' path' k name) := by
  unfold ofType
  split
  · exact ofObject_alike alike
  · exact ofItems_alike alike
  · exact .nil

theorem ofSchema_alike (alike : table.Alike table') :
    Forall₂ Event.Alike (ofSchema corpus location table path k)
      (ofSchema corpus location table' path' k) := by
  unfold ofSchema
  split_ifs
  · exact .nil
  · have ends : Table.EndAlike (table.resolve corpus k.ref) (table'.resolve corpus k.ref) :=
      alike.resolve k.ref
    revert ends
    generalize table.resolve corpus k.ref = first, table'.resolve corpus k.ref = second
    intro ends
    cases ends with
    | nowhere => exact .cons (.unresolved alike) .nil
    | «at» same => exact .cons (.visit same) .nil
  · exact .nil
  · cases k.type with
    | one name => exact ofType_alike alike name
    | list names =>
      have each : Forall₂ Eq names names := forall₂_refl names
      refine rel_flatMap each ?_
      rintro name _ rfl
      exact ofType_alike alike name
    | absent =>
      dsimp only
      split
      · exact ofEach_alike alike _ _
      · exact ofEach_alike alike _ _
      · exact ofEach_alike alike _ _
      · exact .nil

theorem exists_alike {events' : List Event} (same : Forall₂ Event.Alike events events')
    (member : e ∈ events) : ∃ e' ∈ events', e.Alike e' := by
  induction same with
  | nil => cases member
  | cons here _ ih =>
    rcases mem_cons.mp member with rfl | member
    · exact ⟨_, mem_cons_self, here⟩
    · obtain ⟨e', inside, alike⟩ := ih member
      exact ⟨e', mem_cons_of_mem _ inside, alike⟩

end Event

section Runs

theorem Visits.entered_over (visits : Visits corpus node t location u path)
    (covered : (startTable corpus node t).Over corpus) :
    (u.enter corpus location).Over corpus := (visits.over covered).enter location

theorem Visits.alike {u' : Table} {path' : Path} (visits : Visits corpus node t location u path)
    (visits' : Visits corpus node t location u' path')
    (covered : (startTable corpus node t).Over corpus) (free : corpus.NulFree)
    (present : corpus.get? location = some s) (single : (u'.enter corpus location).OneOwner)
    (same : keyOf s location u = keyOf s location u') :
    (u.enter corpus location).Alike (u'.enter corpus location) := by
  have fingerprints : (u.enter corpus location).fingerprint = (u'.enter corpus location).fingerprint := by
    rw [enter_eq present, enter_eq present]
    exact congrArg Key.fingerprint same
  exact ((visits.entered_over covered).legible free).alike
    ((visits'.entered_over covered).legible free) fingerprints single

variable (backed : Backed corpus node t o) (covered : (startTable corpus node t).Over corpus)
  (free : corpus.NulFree)
variable
  (single : ∀ location u path, Visits corpus node t location u path → (u.enter corpus location).OneOwner)
include backed covered free single

theorem Backed.met (visits : Visits corpus node t location u path)
    (present : corpus.get? location = some s) (known : keyOf s location u ∈ o.known) :
    ∃ u' path', Visits corpus node t location u' path' ∧
      (u.enter corpus location).Alike (u'.enter corpus location) ∧
      ∀ e ∈ Event.ofSchema corpus location (u'.enter corpus location) path' s.keywords,
      e.Done corpus o := by
  obtain ⟨location', u', path', s', visits', present', same, done⟩ := backed.closed _ known
  obtain rfl : location = location' := congrArg Key.node same
  obtain rfl := some.inj (present.symm.trans present')
  exact ⟨u', path', visits', visits.alike visits' covered free present (single _ _ _ visits') same, done⟩

theorem Backed.known (closed : o.opened = [])
    (start : (Event.visit (some node) (startTable corpus node t) .root).Done corpus o)
    (visits : Visits corpus node t location u path) (present : corpus.get? location = some s) :
    keyOf s location u ∈ o.known := by
  have settled : ∀ {k : Key}, k ∈ o.opened ∨ k ∈ o.known → k ∈ o.known := by
    rintro k (open_ | known)
    · rw [closed] at open_
      cases open_
    · exact known
  induction visits generalizing s with
  | start => exact settled (start _ _ rfl present)
  | step visits present' event ih =>
    obtain ⟨u', path', -, alike, done⟩ := backed.met covered free single visits present' (ih present')
    obtain ⟨e, member, same⟩ := Event.exists_alike (Event.ofSchema_alike alike) event
    cases same with
    | visit tables =>
      rw [← keyOf_alike (tables rfl)]
      exact settled (done _ member _ _ rfl present)

theorem Backed.lost (closed : o.opened = [])
    (start : (Event.visit (some node) (startTable corpus node t) .root).Done corpus o)
    {table : Table} {key : String} (lost : Lost corpus node t location table path key) :
    ∃ table' path', Lost corpus node t location table' path' key ∧ table.Alike table' ∧
      ∃ issue ∈ o.issues, mark issue.code issue.path issue.hint = mark .unresolvedRef
      (path'.field "$ref").pointer key := by
  cases lost with
  | lost visits present other refers nowhere =>
    have known := backed.known covered free single closed start visits present
    obtain ⟨u', path', visits', alike, done⟩ := backed.met covered free single visits present known
    rename_i u s
    have nowhere' : (u'.enter corpus location).resolve corpus s.keywords.ref = none := by
      have same : ((u.enter corpus location).resolve corpus s.keywords.ref).map (·.1) = _ :=
        alike.toAgree.resolve s.keywords.ref
      rw [nowhere] at same
      exact map_eq_none_iff.mp same.symm
    refine ⟨_, path', .lost visits' present other refers nowhere', alike, ?_⟩
    rw [Event.ofSchema_lost other refers nowhere'] at done
    exact done _ mem_cons_self

end Runs

end Derivation

end JsonShape
