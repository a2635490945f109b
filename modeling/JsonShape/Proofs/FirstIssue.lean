import JsonShape.Proofs.Outline

/-! The first issue. A derivation that stops at it goes in step with one that goes on until then. It
visits no other schema, but it finishes the objects that are open. -/
namespace JsonShape.Derivation
open List

variable {strict : Bool} {o full fast : Outline}

namespace Outline

/-- It has been told of a combinator at a path exactly if there is an issue about it. -/
def Faithful (o : Outline) : Prop := ∀ path, mark .unsupportedCombinator path "" ∈ o.reported ↔
  ∃ issue ∈ o.issues, issue.code = .unsupportedCombinator ∧ issue.path = path

structure Grows (o o' : Outline) : Prop where
  issues : o.issues <+: o'.issues
  faithful : o.Faithful → o'.Faithful

variable {options : Options}

theorem report_grows {issue : Issue}
    (code : issue.code = .unresolvedRef ∨ issue.code = .unsupportedCombinator ∧ issue.hint = "") :
    Grows o (o.report options issue) := by
  unfold report
  split_ifs with told
  · exact ⟨prefix_rfl, id⟩
  · refine ⟨prefix_append _ _, fun faithful path => ?_⟩
    dsimp only
    rw [mem_cons, faithful path]
    rcases code with code | ⟨code, hint⟩
    · rw [code]
      simp [(mark_codes_ne _ _ _ _).symm, or_and_right, exists_or, code]
    · rw [code, hint]
      have same : mark .unsupportedCombinator path "" = mark .unsupportedCombinator issue.path "" ↔
          path = issue.path :=
        ⟨mark_path, fun equal => equal ▸ rfl⟩
      rw [same]
      simp [or_and_right, exists_or, code, or_comm, eq_comm]

theorem grows_stepwise : Stepwise options Grows where
  refl _ := ⟨prefix_rfl, id⟩
  trans first second := ⟨first.issues.trans second.issues, second.faithful ∘ first.faithful⟩
  report _ _ := report_grows
  warn _ _ := ⟨prefix_rfl, id⟩
  cut _ := ⟨prefix_rfl, id⟩
  close _ _ _ grows := ⟨grows.issues, grows.faithful⟩

end Outline

open Outline

variable {corpus : Corpus} {options : Options}

/-- One side has stopped at an issue, the first on both sides. What it has told more is of
combinators, and told by the other side as well. -/
structure Split (strict : Bool) (full fast : Outline) : Prop where
  stopped : fast.stopped = true
  faithful : full.Faithful
  faithful' : fast.Faithful
  issues : ∃ issue later later', full.issues = issue :: later ∧ fast.issues = issue :: later' ∧
      ∀ more ∈ later',
    strict = true ∧ more.code = .unsupportedCombinator ∧ ∃ same ∈ later,
    same.code = .unsupportedCombinator ∧ same.path = more.path

/-- Two sides that have told nothing and agree, or of which one has stopped. -/
inductive Coupled (strict : Bool) : Outline → Outline → Prop
  | same {o : Outline} (going : o.stopped = false) (quiet : o.issues = [])
      (untold : o.reported = []) : Coupled strict o o
  | split {full fast : Outline} (split : Split strict full fast) : Coupled strict full fast

theorem Outline.Faithful.of_quiet (quiet : o.issues = []) (untold : o.reported = []) : o.Faithful := by
  intro path
  simp [quiet, untold]

theorem Split.grows {full' : Outline} (split : Split strict full fast) (grows : Grows full full') :
    Split strict full' fast where
  stopped := split.stopped
  faithful := grows.faithful split.faithful
  faithful' := split.faithful'
  issues := by
    obtain ⟨issue, later, later', eq, eq', told⟩ := split.issues
    obtain ⟨more, added⟩ := grows.issues
    refine ⟨issue, later ++ more, later', by rw [← added, eq, cons_append], eq', fun other member => ?_⟩
    obtain ⟨isStrict, code, same, inside, rest⟩ := told other member
    exact ⟨isStrict, code, same, mem_append_left _ inside, rest⟩

theorem Coupled.told (coupled : Coupled strict full fast) (change change' : List Key → List Key)
    (change'' : Bool → Bool) :
    Coupled strict
      { full with opened := change full.opened, known := change' full.known, whole := change'' full.whole }
      { fast with opened := change fast.opened, known := change' fast.known, whole := change'' fast.whole } := by
  cases coupled with
  | same going quiet untold => exact .same going quiet untold
  | split split => exact .split ⟨split.stopped, split.faithful, split.faithful', split.issues⟩

section Steps

variable (options : Options)

theorem report_first (quiet : o.issues = []) (untold : o.reported = []) (issue : Issue)
    (code : issue.code = .unresolvedRef ∨ issue.code = .unsupportedCombinator ∧ issue.hint = "") :
    Split options.strict (o.report { options with failFast := false } issue)
      (o.report { options with failFast := true } issue) where
  stopped := by simp [Outline.report, untold]
  faithful := (report_grows code).faithful (.of_quiet quiet untold)
  faithful' := (report_grows code).faithful (.of_quiet quiet untold)
  issues :=
    ⟨issue, [],
    [], by simp [Outline.report, untold, quiet], by simp [Outline.report, untold, quiet], nofun⟩

theorem Split.malformed (split : Split options.strict full fast) (strict : options.strict = true)
    (path : Path) (message : String) :
    Split options.strict (full.report { options with failFast := false }
      (.atPath path .unsupportedCombinator message []))
      (fast.report { options with failFast := true }
      (.atPath path .unsupportedCombinator message [])) := by
  set issue := Issue.atPath path .unsupportedCombinator message [] with named
  have grows : Grows full (full.report { options with failFast := false } issue) :=
    report_grows (.inr ⟨rfl, rfl⟩)
  have split := split.grows grows
  by_cases told : mark .unsupportedCombinator issue.path "" ∈ fast.reported
  · rw [show fast.report { options with failFast := true } issue = fast from if_pos told]
    exact split
  · have equal : fast.report { options with failFast := true } issue =
        { fast with
          reported := mark .unsupportedCombinator issue.path "" :: fast.reported
          issues := fast.issues ++ [issue]
          stopped := fast.stopped || true } := if_neg told
    have both : mark .unsupportedCombinator issue.path "" ∈
        (full.report { options with failFast := false } issue).reported := by
      unfold Outline.report
      split_ifs with already
      · exact already
      · exact mem_cons_self
    obtain ⟨same, listed, code, path⟩ := (split.faithful issue.path).mp both
    obtain ⟨first, later, later', eq, eq', rest⟩ := split.issues
    -- the first issue is told on both sides, so it is not the one that is new here
    have later_same : same ∈ later := by
      rw [eq] at listed
      rcases mem_cons.mp listed with rfl | listed
      · exact absurd ((split.faithful' issue.path).mpr
          ⟨same, by rw [eq']; exact mem_cons_self, code, path⟩) told
      · exact listed
    refine ⟨by simp [equal], split.faithful, (report_grows (.inr ⟨rfl, rfl⟩)).faithful split.faithful', ?_⟩
    refine ⟨first, later, later' ++ [issue], eq, by rw [equal, eq', cons_append], fun more member => ?_⟩
    rcases mem_append.mp member with member | member
    · exact rest more member
    · obtain rfl := mem_singleton.mp member
      exact ⟨strict, rfl, same, later_same, code, path⟩

section Follow

variable {visit visit' : Option Location → Table → Path → Outline → Outline}
variable (visits : ∀ location? t path full fast, Coupled options.strict full fast →
  Coupled options.strict (visit location? t path full) (visit' location? t path fast))
include visits

theorem follow_coupled (coupled : Coupled options.strict full fast) (e : Event)
    (found : ∀ path key t, e ≠ .unresolved path key t) :
    Coupled options.strict (full.follow { options with failFast := false } visit e)
      (fast.follow { options with failFast := true } visit' e) := by
  cases e with
  | visit location? t path => exact visits location? t path full fast coupled
  | unresolved path key t => exact absurd rfl (found path key t)
  | malformed path message =>
    unfold Outline.follow
    dsimp only
    split_ifs with strict
    · cases coupled with
      | same going quiet untold => exact .split (report_first options quiet untold _ (.inr ⟨rfl, rfl⟩))
      | split split => exact .split (split.malformed options strict path message)
    · cases coupled with
      | same going quiet untold => exact .same going quiet untold
      | split split => exact .split ⟨split.stopped, split.faithful, split.faithful', split.issues⟩

theorem foldl_follow_coupled {events : List Event}
    (found : ∀ e ∈ events, ∀ path key t, e ≠ .unresolved path key t)
    (coupled : Coupled options.strict full fast) :
    Coupled options.strict (events.foldl (follow { options with failFast := false } visit) full)
      (events.foldl (follow { options with failFast := true } visit') fast) := by
  induction events generalizing full fast with
  | nil => exact coupled
  | cons e rest ih =>
    exact ih (forall_mem_cons.mp found).2 (follow_coupled options visits coupled e (found e mem_cons_self))

end Follow

theorem tour_coupled (budget : Nat) (location? : Option Location) (t : Table) (path : Path)
    (coupled : Coupled options.strict full fast) :
    Coupled options.strict (tour corpus { options with failFast := false } budget location? t path
      full) (tour corpus { options with failFast := true } budget location? t path fast) := by
  induction budget generalizing location? t path full fast with
  | zero => exact coupled.told id id fun _ => false
  | succ budget ih =>
    cases coupled with
    | split split =>
      rw [tour_stopped split.stopped]
      exact .split (split.grows (grows_stepwise.tour _ _ _ _ _))
    | same going quiet untold =>
      cases found : location?.bind corpus.get? with
      | none =>
        rw [tour_absent found, tour_absent found]
        exact .same going quiet untold
      | some s =>
        obtain ⟨location, rfl, present⟩ := Option.bind_eq_some_iff.mp found
        by_cases met : keyOf s location t ∈ full.opened ∨ keyOf s location t ∈ full.known
        · rw [tour_met present (.inr met), tour_met present (.inr met)]
          exact .same going quiet untold
        · push Not at met
          rw [tour_new present going met.1 met.2, tour_new present going met.1 met.2]
          generalize tabled : t.enterSchema s.keywords location t.scope = table
          have start : Coupled options.strict
              { full with opened := keyOf s location t :: full.opened }
              { full with opened := keyOf s location t :: full.opened } :=
            .same going quiet untold
          refine Coupled.told (?_ : Coupled options.strict _ _) (drop 1) (keyOf s location t :: ·) id
          by_cases lost : s.keywords.boolean? = none ∧ s.keywords.ref ≠ "" ∧
            table.resolve corpus s.keywords.ref = none
          · rw [Event.ofSchema_lost lost.1 lost.2.1 lost.2.2]
            exact .split (report_first options (o := { full with opened := _ :: full.opened }) quiet
              untold (unresolvedIssue path _ table) (.inl rfl))
          · refine foldl_follow_coupled options (fun location? t path full fast =>
              ih location? t path) (fun e member p key u equal => ?_) start
            subst equal
            cases Event.mem_ofSchema member with
            | lost other refers nowhere => exact lost ⟨other, refers, nowhere⟩

end Steps

/-- What stopping at the first issue makes of an outcome. It fails if the other does, with the same
issue first; what it tells after that is of combinators, and told by the other as well. -/
structure Outcome.Hastened (strict : Bool) (full fast : Outcome) : Prop where
  ends : (∃ shape, fast.result = .ok shape) ↔ ∃ shape, full.result = .ok shape
  first : fast.issues.head? = full.issues.head?
  later : ∀ more ∈ fast.issues.tail, strict = true ∧ more.code = .unsupportedCombinator ∧
    ∃ same ∈ full.issues.tail, same.code = .unsupportedCombinator ∧ same.path = more.path
  alone : (strict = true → ∀ more ∈ full.issues.tail, more.code ≠ .unsupportedCombinator) →
      fast.issues = full.issues.take 1

theorem Coupled.hastened {o' : Outline} {full fast : Outcome} (coupled : Coupled strict o o')
    (issues : full.issues = o.issues) (issues' : fast.issues = o'.issues)
    (ends : (∃ shape, full.result = .ok shape) ↔ o.issues = [])
    (ends' : (∃ shape, fast.result = .ok shape) ↔ o'.issues = []) : full.Hastened strict fast := by
  cases coupled with
  | same going quiet untold =>
    have quiet' : fast.issues = [] := issues'.trans quiet
    exact ⟨ends'.trans ends.symm,
      by rw [issues, issues'], by simp [quiet'], fun _ => by simp [quiet', issues.trans quiet]⟩
  | split split =>
    obtain ⟨issue, later, later', eq, eq', told⟩ := split.issues
    rw [eq] at issues ends
    rw [eq'] at issues' ends'
    refine ⟨ends'.trans (ends.trans ?_).symm,
      by rw [issues, issues']; rfl, by rwa [issues, issues'], fun fine => ?_⟩
    · simp
    · have none : later' = [] := by
        refine eq_nil_iff_forall_not_mem.mpr fun more member => ?_
        obtain ⟨isStrict, -, same, inside, code, -⟩ := told more member
        rw [issues] at fine
        exact fine isStrict same inside code
      rw [issues, issues', none]
      rfl

/-- Both derivations end and fail together, with the same issue first. One that is not strict tells
of it alone. -/
theorem run_hastened {corpus : Corpus} (documents : corpus.DocumentConstants) (t : Table)
    (node : Location) (options : Options) (g : Graph) :
    ∃ full fast h h', run corpus node t { options with failFast := false } g = .ok (full, h) ∧
      run corpus node t { options with failFast := true } g = .ok (fast, h') ∧
      full.Hastened options.strict fast := by
  obtain ⟨full, h, ran, issues, ends, -⟩ := run_tour documents node { options with failFast := false } g
  obtain ⟨fast, h', ran', issues', ends', -⟩ := run_tour documents node { options with failFast := true } g
  have start : Coupled options.strict .start .start := .same rfl rfl rfl
  have coupled : Coupled options.strict (runTour corpus node t { options with failFast := false })
      (runTour corpus node t { options with failFast := true }) := tour_coupled options _ _ _ _ start
  exact ⟨full, fast, h, h', ran, ran', coupled.hastened issues issues' ends ends'⟩

def unsound : Schema := .node {
  type := .one "object"
  properties? := some [("a", some (.node { ref := "#/$defs/nope" })),
      ("b", some (.node { ref := "#/$defs/none" }))]
  anyOf? := some [some (.node { required? := some ["c"] })] }

theorem run_hastened_unsound :
    ∃ full fast h h', run #[unsound] ⟨0, []⟩ (.ofDocuments #[unsound] [0]) {} {} = .ok (full, h) ∧
      run #[unsound] ⟨0, []⟩ (.ofDocuments #[unsound] [0]) { failFast := true }
      {} = .ok (fast, h') ∧ full.issues.map (·.path) = ["/properties/a/$ref", "/properties/b/$ref"]
      ∧ fast.issues.map (·.path) = ["/properties/a/$ref"] := by
  have documents : Corpus.DocumentConstants #[unsound] := .of_none (by decide +kernel)
  obtain ⟨full, fast, h, h', ran, ran', hastened⟩ :=
    run_hastened documents (.ofDocuments #[unsound] [0]) ⟨0, []⟩ {} {}
  obtain ⟨o, g, again, paths⟩ :
      ∃ o g, run #[unsound] ⟨0, []⟩ (.ofDocuments #[unsound] [0]) {} {} = .ok (o, g) ∧
      o.issues.map (·.path) = ["/properties/a/$ref", "/properties/b/$ref"] :=
        exists_of_evaluated (by decide +kernel)
  obtain ⟨rfl, rfl⟩ := Prod.mk.inj (Except.ok.inj (ran.symm.trans again))
  refine ⟨_, _, _, _, ran, ran', paths, ?_⟩
  rw [hastened.alone nofun, map_take, paths]
  rfl

/-- A strict derivation tells of the object that is still open when the first reference has stopped
it. -/
theorem strict_unsound_told_twice :
    ∃ full fast h h', run #[unsound] ⟨0, []⟩ (.ofDocuments #[unsound] [0]) { strict := true }
      {} = .ok (full, h) ∧ run #[unsound] ⟨0, []⟩ (.ofDocuments #[unsound] [0])
      { strict := true, failFast := true } {} = .ok (fast, h') ∧
      full.issues.map (·.path) = ["/properties/a/$ref", "/properties/b/$ref", "/anyOf/0"] ∧
      fast.issues.map (·.path) = ["/properties/a/$ref", "/anyOf/0"] := by
  obtain ⟨full, h, ran, paths⟩ : ∃ o g, run #[unsound] ⟨0, []⟩ (.ofDocuments #[unsound] [0])
      { strict := true } {} = .ok (o, g) ∧
      o.issues.map (·.path) = ["/properties/a/$ref", "/properties/b/$ref", "/anyOf/0"] :=
        exists_of_evaluated (by decide +kernel)
  obtain ⟨fast, h', ran', paths'⟩ : ∃ o g, run #[unsound] ⟨0, []⟩ (.ofDocuments #[unsound] [0])
      { strict := true, failFast := true } {} = .ok (o, g) ∧
      o.issues.map (·.path) = ["/properties/a/$ref", "/anyOf/0"] := exists_of_evaluated (by decide +kernel)
  exact ⟨full, fast, h, h', ran, ran', paths, paths'⟩

end JsonShape.Derivation
