import JsonShape.Proofs.Recollection
import JsonShape.Proofs.Widening

/-! Options that ask for less. Derivations of the same schemas under them go side by side and report
the same, and what the second one derives is looser. -/
namespace JsonShape
open List Graph

/-- Options that differ at most in what may be absent: under the first ones it is no more than under
the second ones. -/
structure Options.Tightens (options other : Options) : Prop where
  mode : other.mode = .response → options.mode = .response
  recursion : other.recursion = .required → options.recursion = .required
  strict : other.strict = options.strict
  failFast : other.failFast = options.failFast

theorem Options.tightens_response (options : Options) :
    { options with mode := .response }.Tightens { options with mode := .request } :=
  ⟨nofun, id, rfl, rfl⟩

theorem Options.tightens_required (options : Options) :
    { options with recursion := .required }.Tightens { options with recursion := .optional } :=
  ⟨id, nofun, rfl, rfl⟩

theorem Options.Tightens.trans {options other third : Options} (first : options.Tightens other)
    (second : other.Tightens third) : options.Tightens third :=
  ⟨first.mode ∘ second.mode, first.recursion ∘ second.recursion, second.strict.trans first.strict,
    second.failFast.trans first.failFast⟩

namespace Derivation

open Shape Conformance

variable {f top : Frame} {s t : Shape}

/-- Graphs with the same handles, the new ones of the second with looser targets. -/
structure Beside (base : Nat) (g h : Graph) : Prop extends Relaxes (base ≤ ·) g h where
  size : h.handles.size = g.handles.size
  names : ∀ id, h.nameOf id = g.nameOf id

def State.holding (st : State) (graph : Graph) (memo : List Memo) : State :=
  { st with graph := graph, memo := memo }

/-- States of derivations that go side by side: frames are open for some keys, and only what is
bound and what is remembered differs. -/
structure Abreast (base : Nat) (keys : List Key) (st st' : State) : Prop where
  same : st' = st.holding st'.graph st'.memo
  frames : st.stack.map (·.key) = keys
  handles : ∀ f ∈ st.stack, ∀ id, f.handle? = some id → base ≤ id ∧ id < st.graph.handles.size
  memo : Forall₂ (fun m m' => m'.key = m.key ∧ Looser (base ≤ ·) m.shape m'.shape ∧
      m'.frame? = m.frame?) st.memo st'.memo
  started : base ≤ st.graph.handles.size
  graph : Beside base st.graph st'.graph

/-- Derivations of the same schemas with tighter and with looser options. -/
def relaxation (corpus : Corpus) (options options' : Options) (base : Nat) : Pairing where
  corpus := corpus
  options := options
  options' := options'
  table t t' := t' = t
  budget _ n n' := n' = n
  state := Abreast base
  fault _ := True
  shape _ := Looser (base ≤ ·)
  flag b b' := b = true → b' = true
  names _ := True
  constant := Value.Document
  meets := False

variable {base : Nat} {g h : Graph}

theorem beside_renumber (beside : Beside base g h) (n n' : Nat) :
    Beside base { g with next := n } { h with next := n' } :=
  ⟨⟨beside.bound, beside.looser⟩, beside.size, beside.names⟩

theorem beside_declare (beside : Beside base g h) (name ref : String) :
    Beside base (g.declare name ref).2 (h.declare name ref).2 := by
  refine ⟨⟨fun {id} new => ?_, fun {id} new s t here there => ?_⟩, ?_, fun id => ?_⟩
  · rw [target?_declare, target?_declare]
    exact beside.bound new
  · rw [target?_declare] at here there
    exact beside.looser new here there
  · rw [size_declare, size_declare, beside.size]
  · rw [nameOf_declare, nameOf_declare, beside.size, beside.names]

theorem beside_bind (beside : Beside base g h) {id : Nat} (known : id < g.handles.size)
    (looser : Looser (base ≤ ·) s t) : Beside base (g.bind id s) (h.bind id t) := by
  have known' : id < h.handles.size := beside.size ▸ known
  refine ⟨⟨fun {other} new => ?_, fun {other} new a b here there => ?_⟩, ?_, fun other => ?_⟩
  · rw [target?_bind g known, target?_bind h known']
    split_ifs
    · rfl
    · exact beside.bound new
  · rw [target?_bind g known] at here
    rw [target?_bind h known'] at there
    split_ifs at here there
    · cases here
      cases there
      exact looser
    · exact beside.looser new here there
  · rw [size_bind, size_bind, beside.size]
  · rw [nameOf_bind, nameOf_bind, beside.names]

theorem handleOf_holding (st : State) (unknown : f.handle? = none) :
    ∃ names name ref, ∀ graph memo, handleOf f (st.holding graph memo) =
      .ok (graph.handles.size,
      { st.holding (graph.declare name
      ref).2 memo with names := names, stack := st.stack.map (f.refer graph.handles.size) }) := by
  have given : ∀ graph memo, freshName f (st.holding graph memo) = (freshName f st).map
      fun (r, s) => (r, s.holding graph memo) :=
    fun _ _ => rfl
  obtain ⟨names, name, ref, fresh⟩ :
      ∃ names name ref, freshName f st = .ok ((name, ref), { st with names := names }) :=
      ⟨_, _, _, rfl⟩
  refine ⟨names, name, ref, fun graph memo => ?_⟩
  change (handleOf f).run (st.holding graph memo) = _
  unfold handleOf
  rw [unknown, StateT.run_bind]
  change (freshName f (st.holding graph memo) >>= _) = _
  rw [given, fresh]
  rfl

variable {corpus : Corpus} {options options' : Options} {keys : List Key} {live : Nat → Prop}
  {st st' : State}

theorem Abreast.exists_eq (abreast : Abreast base keys st st') :
    ∃ graph memo, st' = st.holding graph memo := ⟨_, _, abreast.same⟩

theorem relaxation_draw {f f' : Fresh Shape}
    (yields : ∀ n n', ∃ s s' k k', f n = .ok (s, k) ∧ f' n' = .ok (s', k') ∧ Looser (base ≤ ·) s s') :
    (relaxation corpus options options' base).Parallel keys live (fun _ => Looser (base ≤ ·))
      (draw f) (draw f') := by
  intro st st' abreast _
  obtain ⟨s, s', k, k', run, run', looser⟩ := yields st.graph.next st'.graph.next
  obtain ⟨graph, memo, rfl⟩ := abreast.exists_eq
  rw [draw_eq, draw_eq, run, run']
  exact .ok ⟨rfl, abreast.frames, abreast.handles, abreast.memo, abreast.started,
    beside_renumber abreast.graph k k'⟩ (fun _ _ => trivial) looser

theorem relaxation_serial {shape shape' : Nat → Shape}
    (each : ∀ n n', Looser (base ≤ ·) (shape n) (shape' n')) :
    (relaxation corpus options options' base).Parallel keys live (fun _ => Looser (base ≤ ·))
      (draw (do return shape (← Fresh.serial))) (draw (do return shape' (← Fresh.serial))) :=
  relaxation_draw fun n n' => ⟨shape n, shape' n', n + 1, n' + 1, rfl, rfl, each n n'⟩

theorem relaxation_union (inclusive : Bool) {ss ts : List Shape}
    (each : Forall₂ (Looser (base ≤ ·)) ss ts) :
    (relaxation corpus options options' base).Parallel keys live (fun _ => Looser (base ≤ ·))
      (draw (unionOf inclusive ss)) (draw (unionOf inclusive ts)) := by
  obtain ⟨grown?, grown?', run, run', looser⟩ := gathered_looser each inclusive
  have left : (unionOf inclusive ss).Yields fun s => ∃ n, s = gathered n inclusive grown? :=
    unionOf_gathered run
  have right : (unionOf inclusive ts).Yields fun s => ∃ n, s = gathered n inclusive grown?' :=
    unionOf_gathered run'
  refine relaxation_draw fun n n' => ?_
  obtain ⟨_, k, here, m, rfl⟩ := left n
  obtain ⟨_, k', there, m', rfl⟩ := right n'
  exact ⟨_, _, k, k', here, there, looser m m'⟩

theorem relaxation_modify {change : State → State} (frames : ∀ st, (change st).stack = st.stack)
    (changed : ∀ st graph memo, change (st.holding graph memo) = (change st).holding graph memo) :
    (relaxation corpus options options' base).Parallel keys live (fun _ _ _ => True)
      (modify change : Derive Unit) (modify change) := by
  intro st st' abreast _
  obtain ⟨graph, memo, rfl⟩ := abreast.exists_eq
  have own : change st = (change st).holding st.graph st.memo := changed st st.graph st.memo
  change (relaxation corpus options options' base).Ends keys live _ (.ok ((), change st))
    (.ok ((), change (st.holding graph memo)))
  rw [changed]
  refine .ok ⟨rfl, ?_, ?_, ?_, ?_, ?_⟩ (fun _ _ => trivial) trivial
  · rw [frames]
    exact abreast.frames
  · rw [frames, congrArg State.graph own]
    exact abreast.handles
  · rw [congrArg State.memo own]
    exact abreast.memo
  · rw [congrArg State.graph own]
    exact abreast.started
  · rw [congrArg State.graph own]
    exact abreast.graph

theorem relaxation_report (tightens : options.Tightens options') (issue : Issue) :
    (relaxation corpus options options' base).Parallel keys live (fun _ _ _ => True)
      (report options issue) (report options' issue) := by
  unfold report
  rw [tightens.failFast]
  refine relaxation_modify (fun st => ?_) fun st graph memo => ?_
  all_goals
    dsimp only [State.holding]
    split_ifs <;> rfl

theorem relaxation_malformed (tightens : options.Tightens options') (p : Path) (message : String) :
    (relaxation corpus options options' base).Parallel keys live
      (relaxation corpus options options' base).Result (malformed options p message)
      (malformed options' p message) := by
  have ends : ∀ live, (relaxation corpus options options' base).Parallel keys live
      (relaxation corpus options options' base).Result
      (pure (.never, none)) (pure (.never, none)) := fun _ => .pure fun _ _ => ⟨looser_flat rfl, rfl⟩
  unfold malformed
  rw [tightens.strict]
  split_ifs
  · exact .bind (relaxation_report tightens _) fun _ _ live _ _ => ends live
  · exact .bind (relaxation_modify (fun _ => rfl) fun _ _ _ => rfl) fun _ _ live _ _ => ends live

theorem mayLack_mono (tightens : options.Tightens options') (required near far filled : Bool)
    (lacks : mayLack options required near far filled = true) :
    mayLack options' required near far filled = true := by
  obtain ⟨mode, recursion, strict, failFast⟩ := options
  obtain ⟨mode', recursion', strict', failFast'⟩ := options'
  obtain ⟨answers, stays, -, -⟩ := tightens
  unfold mayLack at lacks ⊢
  cases mode <;> cases mode' <;> cases recursion <;> cases recursion' <;> simp_all

theorem handleOf_abreast (abreast : Abreast base keys st st') (member : f ∈ st.stack) :
    (relaxation corpus options options' base).Ends keys live (fun _ id id' =>
      Looser (base ≤ ·) (.handle id) (.handle id')) (handleOf f st) (handleOf f st') := by
  cases handle : f.handle? with
  | some id =>
    rw [handleOf_known handle, handleOf_known handle]
    exact .ok abreast (fun _ _ => trivial) (looser_handle (abreast.handles f member id handle).1)
  | none =>
    obtain ⟨graph, memo, rfl⟩ := abreast.exists_eq
    obtain ⟨names, name, ref, given⟩ := handleOf_holding st handle
    have here : handleOf f st = _ := given st.graph st.memo
    have size : graph.handles.size = st.graph.handles.size := abreast.graph.size
    have new := abreast.started
    rw [here, given graph memo, size]
    refine .ok ⟨rfl, ?_, fun x listed id found => ?_, abreast.memo, ?_,
      beside_declare abreast.graph name ref⟩ (fun _ _ => trivial)
      (looser_handle new)
    · rw [← abreast.frames, map_map]
      exact map_congr_left fun x _ => f.refer_key _ x
    · obtain ⟨y, inside, rfl⟩ := mem_map.mp listed
      rw [Frame.refer_handle?] at found
      change base ≤ id ∧ id < (st.graph.declare name ref).2.handles.size
      rw [size_declare]
      split_ifs at found
      · cases found
        exact ⟨new, Nat.lt_succ_self _⟩
      · obtain ⟨above, known⟩ := abreast.handles y inside id found
        exact ⟨above, Nat.lt_succ_of_lt known⟩
    · exact new.trans (size_declare st.graph name ref ▸ Nat.le_succ _)

theorem looser_close (handles : ∀ id, top.handle? = some id → base ≤ id) (looser : Looser (base ≤ ·) s t) :
    Looser (base ≤ ·) (top.shape s) (top.shape t) := by
  unfold Frame.shape
  cases handle : top.handle? with
  | none => exact looser
  | some id => exact looser_handle (handles id handle)

theorem beside_close (beside : Beside base g h)
    (handles : ∀ id, top.handle? = some id → id < g.handles.size) (looser : Looser (base ≤ ·) s t) :
    Beside base (top.bind g s) (top.bind h t) := by
  unfold Frame.bind
  cases handle : top.handle? with
  | none => exact beside
  | some id => exact beside_bind beside (handles id handle) looser

theorem closeFrame_abreast (abreast : Abreast base (f.key :: keys) st st') {r r' : Result}
    (results : (relaxation corpus options options' base).Result live r r') :
    (relaxation corpus options options' base).Ends keys live
      (relaxation corpus options options' base).Result (closeFrame f r st)
      (closeFrame f r' st') := by
  obtain ⟨graph, memo, rfl⟩ := abreast.exists_eq
  obtain ⟨s, low?⟩ := r
  obtain ⟨s', low?'⟩ := r'
  obtain ⟨looser, rfl⟩ : Looser (base ≤ ·) s s' ∧ low?' = low? := ⟨results.shape, results.low⟩
  obtain ⟨top, rest, innermost, -, frames⟩ := map_eq_cons_iff.mp abreast.frames
  have innermost' : (st.holding graph memo).stack = top :: rest := innermost
  have inside : top ∈ st.stack := innermost ▸ mem_cons_self
  have handles := abreast.handles top inside
  by_cases free : ∀ id, top.handle? = some id → st.graph.target? id = none
  · have free' : ∀ id, top.handle? = some id → graph.target? id = none := by
      intro id handle
      have unbound : (st.graph.target? id).isSome = (graph.target? id).isSome :=
        abreast.graph.bound (handles id handle).1
      rw [free id handle] at unbound
      simpa using unbound.symm
    rw [closeFrame_free innermost free, closeFrame_free innermost' free']
    split_ifs
    · exact .fault trivial
    · have shown := looser_close (fun id handle => (handles id handle).1) looser
      refine .ok ⟨rfl, frames, fun x member => ?_, .cons ⟨rfl, shown, rfl⟩ abreast.memo, ?_, ?_⟩
        (fun _ _ => trivial) ⟨shown, rfl⟩
      · rw [size_close]
        exact abreast.handles x (innermost ▸ mem_cons_of_mem _ member)
      · rw [size_close]
        exact abreast.started
      · exact beside_close abreast.graph (fun id handle => (handles id handle).2) looser
  · -- a handle that is bound already is so on both sides, by the same name
    push Not at free
    obtain ⟨id, handle, bound⟩ := free
    obtain ⟨target, found⟩ := Option.ne_none_iff_exists'.mp bound
    have both := abreast.graph.bound (handles id handle).1
    rw [found] at both
    obtain ⟨target', found'⟩ := Option.isSome_iff_exists.mp both.symm
    have name : graph.nameOf id = st.graph.nameOf id := abreast.graph.names id
    rw [closeFrame_bound innermost handle found, closeFrame_bound innermost' handle found']
    change (relaxation corpus options options' base).Ends keys live _ _
      (.error (.boundTwice (graph.nameOf id)))
    rw [name]
    exact .fault trivial

end Derivation

/-- There is no `allOf`, and no `oneOf` beside the type of objects. -/
def Keywords.isUncombined (k : Keywords Schema) : Bool :=
  k.allOf?.isNone && !(k.type.has "object" && k.oneOf?.isSome)

def Corpus.Uncombined (corpus : Corpus) : Prop :=
  ∀ location s, corpus.get? location = some s → s.keywords.isUncombined = true

namespace Derivation

open Shape Conformance

variable {corpus : Corpus} {options options' : Options} {base : Nat} {t : Table} {node : Location}
  {g : Graph}

theorem relaxation_lawful (documents : corpus.DocumentConstants) (uncombined : corpus.Uncombined)
    (tightens : options.Tightens options') : (relaxation corpus options options' base).Lawful where
  toTables := .of_same (fun _ _ => (and_iff_left trivial).symm) (fun _ _ => trivial) fun _ _ => trivial
  mono _ _ _ _ _ := id
  admits {location s} present := by
    have own := documents location s present
    have plain := uncombined location s present
    simp only [Keywords.isUncombined, Bool.and_eq_true, Option.isNone_iff_eq_none,
      Bool.not_eq_true', Bool.and_eq_false_imp,
      Option.isSome_eq_false_iff] at plain
    exact ⟨fun _ _ => trivial, own.const, own.enum, .inl plain.1, fun typed => .inl (plain.2 typed)⟩
  flat unnumbered := looser_flat (isFlat_of_isUnnumbered unnumbered)
  format _ _ _ := relaxation_serial fun n n' => looser_dateTime n n' _
  literal _ _ _ document := relaxation_serial fun n n' => looser_literal n n' document
  items _ _ _ _ inside := relaxation_serial fun n n' => looser_array n n' inside
  properties _ _ ps qs _ _ each extra _ := by
    have pairs : Forall₂ (fun p q => p.name = q.name ∧ (p.optional = true → q.optional = true) ∧
        Looser (base ≤ ·) p.shape q.shape) ps qs :=
      each.imp fun p q related => ⟨related.name.symm, related.optional, related.shape⟩
    exact relaxation_serial fun n n' =>
      looser_object n n' (sortProperties_forall₂ (fun _ _ pair => pair.1) pairs) extra
  union _ _ inclusive _ _ each := relaxation_union inclusive each
  meet _ _ meets := meets.elim
  meetAll _ _ meets := meets.elim
  malformed _ _ p _ _ := relaxation_malformed tightens p _
  unresolved _ _ _ _ _ _ seen := seen ▸ relaxation_report tightens _
  lack required near far filled := mayLack_mono tightens required near far filled
  demand more flags both := by
    rw [Bool.and_eq_true] at both ⊢
    exact ⟨flags both.1, both.2⟩
  unnamed := trivial
  stopped abreast := by rw [abreast.same]; rfl
  same frames := frames ▸ ⟨rfl, rfl, rfl⟩
  stack abreast := by rw [abreast.same]; exact forall₂_same.mpr fun _ _ => rfl
  frames abreast := abreast.frames
  memo abreast := abreast.memo.imp fun _ _ related => ⟨related.1, related.2.1, related.2.2⟩
  handle abreast _ _ member frames := frames ▸ handleOf_abreast abreast member
  enter {keys st st'} abreast key t t' title seen _ := by
    obtain ⟨graph, memo, rfl⟩ := abreast.exists_eq
    obtain rfl : t' = t := seen
    refine ⟨⟨rfl, congrArg (key :: ·) abreast.frames, fun f member => ?_, abreast.memo,
      abreast.started, abreast.graph⟩, rfl, le_rfl⟩
    rcases mem_cons.mp member with rfl | inside
    · exact nofun
    · exact abreast.handles f inside
  close abreast _ frames _ _ results := frames ▸ closeFrame_abreast abreast results
  spent budgets := ⟨budgets, trivial⟩
  spent' budgets := budgets.symm
  open_key budgets _ _ _ _ _ _ _ := Nat.succ.inj budgets

/-- Outcomes of derivations that break off for the same reason, report the same issues, or give
shapes of which the second is looser. -/
inductive RunsLooser (base : Nat) : Except Fault (Outcome × Graph) → Except Fault (Outcome × Graph) → Prop
  | fault (e : Fault) : RunsLooser base (.error e) (.error e)
  | issues {issues : List Issue} {warnings : List String} {g h : Graph} :
      RunsLooser base (.ok (⟨.error issues, warnings⟩, g)) (.ok (⟨.error issues, warnings⟩, h))
  | shape {s s' : Shape} {warnings : List String} {g h : Graph} (looser : Looser (base ≤ ·) s s')
      (relaxes : Relaxes (base ≤ ·) g h) :
      RunsLooser base (.ok (⟨.ok s, warnings⟩, g)) (.ok (⟨.ok s', warnings⟩, h))

theorem abreast_start (g : Graph) : Abreast g.handles.size [] { graph := g } { graph := g } where
  same := rfl
  frames := rfl
  handles := nofun
  memo := .nil
  started := le_rfl
  graph := ⟨⟨fun _ => rfl, fun new _ _ here _ => nomatch here.symm.trans (g.target?_eq_none new)⟩,
      rfl, fun _ => rfl⟩

theorem run_looser (documents : corpus.DocumentConstants) (uncombined : corpus.Uncombined)
    (tightens : options.Tightens options') (node : Location) (t : Table) (g : Graph) :
    RunsLooser g.handles.size (run corpus node t options g) (run corpus node t options' g) := by
  let table := t.push (.resource (((corpus.get? node).map (·.keywords.id)).getD "") node)
  have recurs : (relaxation corpus options options' g.handles.size).Recurs []
      (derive corpus options (deriveBudget corpus table))
      (derive corpus options' (deriveBudget corpus table)) := by
    rw [← deriveBy_true, ← deriveBy_true]
    exact Pairing.derive_recurs (relaxation_lawful documents uncombined tightens) rfl
  have ends := recurs (fun _ => True) (some node) table table .root (fun _ => rfl) _ _
      (abreast_start g) le_rfl
  change RunsLooser _ (derive corpus options (deriveBudget corpus table)
    (some node) table .root { graph := g } >>= _)
    (derive corpus options' (deriveBudget corpus table) (some node) table .root { graph := g } >>= _)
  revert ends
  generalize derive corpus options _ _ _ _ _ = result, derive corpus options' _ _ _ _ _ = result'
  rintro (@⟨r, r', st, st', abreast, -, results⟩ | reason)
  · obtain ⟨graph, memo, rfl⟩ := abreast.exists_eq
    change RunsLooser _ (.ok
      (⟨if st.issues.isEmpty then .ok r.1 else .error st.issues, st.warnings⟩, st.graph))
      (.ok (⟨if st.issues.isEmpty then .ok r'.1 else .error st.issues, st.warnings⟩, graph))
    split_ifs
    · exact .shape results.shape abreast.graph.toRelaxes
    · exact .issues
  · exact .fault _

def Derives (corpus : Corpus) (node : Location) (t : Table) (options : Options) (g : Graph)
    (s : Shape) (h : Graph) : Prop :=
  ∃ o, run corpus node t options g = .ok (o, h) ∧ o.result = .ok s

/-- With looser options a schema has a shape where it has one with tighter options, and the values
of the one conform to the other. The condition is on all documents, not only on the one of the
schema: a reference may lead to any of them. -/
theorem conforms_of_tightens (documents : corpus.DocumentConstants) (uncombined : corpus.Uncombined)
    (tightens : options.Tightens options') (node : Location) (t : Table) (g : Graph) :
    ((∃ s h, Derives corpus node t options g s h) ↔ ∃ s h, Derives corpus node t options' g s h) ∧
      ∀ s h s' h', Derives corpus node t options g s h → Derives corpus node t options' g s' h' →
      ∀ v, conforms h s v = .ok true → conforms h' s' v = .ok true := by
  have runs := run_looser documents uncombined tightens node t g
  unfold Derives
  revert runs
  generalize run corpus node t options g = result, run corpus node t options' g = result'
  rintro (e | @⟨issues, warnings, h, h'⟩ | @⟨s, s', warnings, h, h', looser, relaxes⟩)
  · exact ⟨⟨nofun, nofun⟩, nofun⟩
  · refine ⟨⟨?_, ?_⟩, ?_⟩
    · rintro ⟨_, _, _, ⟨⟩, ⟨⟩⟩
    · rintro ⟨_, _, _, ⟨⟩, ⟨⟩⟩
    · rintro _ _ _ _ ⟨_, ⟨⟩, ⟨⟩⟩
  · refine ⟨⟨fun _ => ⟨s', h', _, rfl, rfl⟩, fun _ => ⟨s, h, _, rfl, rfl⟩⟩, ?_⟩
    rintro _ _ _ _ ⟨_, ⟨⟩, ⟨⟩⟩ ⟨_, ⟨⟩, ⟨⟩⟩ v conforms
    exact conforms_looser relaxes looser conforms

def marksSchema : Schema :=
  .node {
    type := .list ["object", "null"]
    properties? := some [
      ("mark", some (.node { anyOf? := some [
        some
        (.node { type := .one "object", properties? := some [("text",
        some (.node { type := .one "string", default? := some (.string "") }))] }),
        some
        (.node { type := .one "object", properties? := some [("text",
        some (.node { type := .one "string" }))], required? := some ["text"] })] })),
      ("next", some (.node { ref := "#" }))]
    required? := some ["next"] }

def marksGraph : Graph where
  handles := #[⟨"Root", "#", some (.union 3 false [
    .object 2 [⟨"mark", .object 0 [⟨"text", .string, false, some (.string "")⟩] none, true, none⟩,
    ⟨"next", .handle 0, false, none⟩] none, .null])⟩]
  next := 4

theorem marksSchema_plain :
    Corpus.DocumentConstants #[marksSchema] ∧ Corpus.Uncombined #[marksSchema] := by
  have plain : ∀ place ∈ Corpus.places #[marksSchema], place.2.keywords.isUncombined = true := by
    decide +kernel
  exact ⟨.of_none (by decide +kernel), fun location s present => plain _ (Corpus.mem_places present)⟩

theorem marks_conform :
    Corpus.DocumentConstants #[marksSchema] ∧ Corpus.Uncombined #[marksSchema] ∧
      Derives #[marksSchema] ⟨0, []⟩ (.ofDocuments #[marksSchema] [0])
      ⟨.response, .required, false, false⟩ {} (.handle 0) marksGraph ∧
      ∃ s h v, Derives #[marksSchema] ⟨0, []⟩ (.ofDocuments #[marksSchema] [0]) {} {} s h ∧
      conforms marksGraph (.handle 0) v = .ok true ∧ conforms h s v = .ok true := by
  obtain ⟨documents, uncombined⟩ := marksSchema_plain
  have tightens := (Options.tightens_response ⟨.response, .required, false, false⟩).trans
      (Options.tightens_required ⟨.request, .required, false, false⟩)
  obtain ⟨succeeds, monotone⟩ :=
    conforms_of_tightens documents uncombined tightens ⟨0, []⟩ (.ofDocuments #[marksSchema] [0]) {}
  have derived : Derives #[marksSchema] ⟨0, []⟩ (.ofDocuments #[marksSchema] [0])
      ⟨.response, .required, false, false⟩ {} (.handle 0) marksGraph :=
    ⟨⟨.ok (.handle 0), []⟩, by cbv, rfl⟩
  have passes : conforms marksGraph (.handle 0)
      (.map .values [("mark", .map .values [("text", .string "a")]), ("next", .null)]) =
      .ok true := by cbv
  obtain ⟨s, h, loosened⟩ := succeeds.mp ⟨_, _, derived⟩
  exact ⟨documents, uncombined, derived, s, h, _, loosened, passes,
    monotone _ _ s h derived loosened _ passes⟩

def picks : Corpus :=
  let self : Schema := .node { ref := "#" }
  let text : Schema := .node { type := .one "string" }
  let truth : Schema := .node { type := .one "boolean" }
  let all (parts : List Schema) : Schema := .node { allOf? := some (parts.map some) }
  let list (first second : Schema) : Schema :=
    .node { type := .one "array", items? := some (.node { anyOf? := some [some first, some second] }) }
  let entry (mark notes : Schema) : Schema :=
    .node { type := .one "object", properties? := some [("mark", some mark), ("notes", some notes)] }
  let pick : Schema := .node { anyOf? := some [
    some (entry (.node { type := .one "string", default? := some (.string "") })
    (list (all [self, text, self]) (all [self, truth, self]))),
    some (entry text (list (all [self, text, truth]) (.node { type := .one "number" })))] }
  #[.node { ref := "pick" },
  .node { id := "pick", type := .one "object", properties? := some [("entry", some pick)] }]

def pickedEntry : Value :=
  .map .values [("entry",
  .map .values [("mark", .string ""), ("notes", .seq .values [.decimal "5"])])]

set_option maxRecDepth 2000 in
/-- In requests, where neither mark has to be there, the first alternative equals the second, which
is dropped for it. -/
theorem pickedEntry_refused :
    ∃ s h s' h', Derives picks ⟨0, []⟩ (.ofDocuments picks [1]) { mode := .response } {} s h ∧
      conforms h s pickedEntry = .ok true ∧ Derives picks ⟨0, []⟩ (.ofDocuments picks [1])
      { mode := .request } {} s' h' ∧ conforms h' s' pickedEntry = .ok false := by
  have derived : Derives picks ⟨0, []⟩ (.ofDocuments picks [1]) { mode := .response } {} _ _ :=
    ⟨⟨.ok _, []⟩, by cbv, rfl⟩
  have derived' : Derives picks ⟨0, []⟩ (.ofDocuments picks [1]) { mode := .request } {} _ _ :=
    ⟨⟨.ok _, []⟩, by cbv, rfl⟩
  exact ⟨_, _, _, _, derived, by cbv, derived', by cbv⟩

end Derivation

end JsonShape
