import JsonShape.Proofs.FormationRules
import JsonShape.Proofs.Recollection

/-! Known shapes make no difference: the shape of a derivation that looks them up and that of one
that derives every schema again accept the values of the schema. -/
namespace JsonShape
open List Option

namespace Table

/-- The tables that a derivation can come to from a table. -/
inductive Leads (corpus : Corpus) (t : Table) : Table → Prop
  | start : Leads corpus t t
  | enter {u : Table} (leads : Leads corpus t u) (location : Location) :
      Leads corpus t (u.enter corpus location)
  | resolve {u u' : Table} {key : String} {node? : Option Location} (leads : Leads corpus t u)
      (found : u.resolve corpus key = some (node?, u')) : Leads corpus t u'

theorem Leads.over {corpus : Corpus} {t u : Table} (leads : Leads corpus t u)
    (covered : t.Over corpus) : u.Over corpus := by
  induction leads with
  | start => exact covered
  | enter _ location ih => exact ih.enter location
  | resolve _ found ih => exact ih.resolve found

theorem Over.oneOwner {corpus : Corpus} {t : Table} (covered : t.Over corpus)
    (anonymous : ∀ location s, corpus.get? location = some s → s.keywords.id = "") : t.OneOwner := by
  have none : ∀ e ∈ t.entries, e.id = "" := by
    intro e member
    rcases (covered e member).isId with empty | ⟨location, s, present, same⟩
    · exact empty
    · exact same.symm.trans (anonymous location s present)
  exact fun d member d' member' _ _ _ _ => (none d member).trans (none d' member').symm

end Table

namespace Derivation

variable {R : Realm} {keys : List Key} {W : View → Prop} {recur : Recur} {location : Location}
  {s : Schema} {t : Table} {path : Path} {st : State} {clean : Prop}

theorem inFrame_ends (recurs : Recurs R (keyOf s location t :: keys) W recur)
    (present : R.corpus.get? location = some s) (seen : R.seen t) :
    Ends R keys (Clean W (R.alternatives location (t.enter R.corpus location) s.keywords))
      (inFrame recur R.corpus R.options location s t path) fun ω r =>
      Gives R ω ⟨some location, t⟩ r.1 := by
  intro st r st' ran
  rw [inFrame_eq, ← Realm.enter_eq present] at ran
  obtain ⟨⟨⟨shape, low?⟩, st₁⟩, inside, closed⟩ := bind_eq_ok_iff.mp ran
  obtain ⟨quiet, before, after⟩ :=
    dispatch_ends recurs (R.enter t location seen) (R.tame location s present) _ _ _ inside
  obtain ⟨issues, closes⟩ := closeFrame_ok closed
  rw [← issues] at quiet before after
  refine ⟨quiet, before, fun silent ω holds => ?_⟩
  obtain ⟨ω', grows, holds', results⟩ := after silent ω (holds.enter _ _ _)
  obtain ⟨top, rest, innermost, -⟩ := map_eq_cons_iff.mp holds'.frames
  obtain ⟨equal, rfl⟩ := closes top rest innermost
  obtain ⟨alts, rule, forms⟩ := results ω' (.refl ω')
  have formed : Formed R ω' (keyOf s location t) shape :=
    ⟨location, s, t, alts, present, seen, rfl, rule, forms⟩
  refine ⟨ω', grows, holds'.close innermost formed _, fun ω'' later => ?_⟩
  rw [equal]
  exact (holds'.gives_close innermost formed present seen rfl).grow later

theorem handle_ends {f : Frame} (member : f ∈ st.stack) (present : R.corpus.get? location = some s)
    (seen : R.seen t) (same : f.key = keyOf s location t) {r : Result} {st' : State}
    (ran : (do return (.handle (← handleOf f), some f.depth) : Derive Result) st = .ok (r, st')) :
    Ending R keys clean (fun ω r => Gives R ω ⟨some location, t⟩ r.1) st r st' := by
  obtain ⟨number, st₁, given, equal⟩ := bind_run ran
  cases equal
  cases handle : f.handle? with
  | some own =>
    rw [handleOf_known handle] at given
    cases given
    refine ⟨fun _ => id, id, fun _ ω holds =>
      ⟨ω, .refl ω, holds, fun ω' grows => .back present seen (grows _ _ ?_)⟩⟩
    rw [holds.owned f member _ handle, same]
  | none =>
    obtain ⟨names, name, ref, equal⟩ := handleOf_new st handle
    rw [equal] at given
    cases given
    refine ⟨fun _ => id, id, fun _ ω holds => ?_⟩
    obtain ⟨ω', grows, owned, holds'⟩ := holds.refer member handle names name ref
    refine ⟨ω', grows, holds', fun ω'' later => .back present seen (later _ _ ?_)⟩
    rw [owned, same]

theorem deriveBy_ends (recalls : Bool)
    (closed : ∀ location s t, R.corpus.get? location = some s → W ⟨some location, t⟩ →
      Clean W (R.alternatives location (t.enter R.corpus location) s.keywords)) (budget : Nat)
    (keys : List Key) : Recurs R keys W (deriveBy recalls R.corpus R.options budget) := by
  induction budget generalizing keys with
  | zero =>
    intro location? t path _ st r st' ran
    cases ran
  | succ budget ih =>
    intro location? t path seen st r st' ran
    cases stopped : st.stopped with
    | true =>
      rw [deriveBy_stopped stopped] at ran
      cases ran
      refine ⟨fun _ => id, id, fun _ ω holds => ?_⟩
      rw [holds.going] at stopped
      cases stopped
    | false =>
      cases found : location?.bind R.corpus.get? with
      | none =>
        rw [deriveBy_absent found] at ran
        cases ran
        exact ⟨fun _ => id, id, fun _ ω holds => ⟨ω, .refl ω, holds, fun _ _ => .nowhere found⟩⟩
      | some s =>
        obtain ⟨location, rfl, present⟩ := bind_eq_some_iff.mp found
        have seen := seen rfl
        cases reached : st.stack.find? (·.key == keyOf s location t) with
        | some f =>
          rw [deriveBy_open stopped present reached] at ran
          exact handle_ends (mem_of_find?_eq_some reached) present seen
            (by simpa using find?_some reached) ran
        | none =>
          have new (unknown : recalls = true → st.memo.find? (·.key == keyOf s location t) = none) :
              Ending R keys (W ⟨some location, t⟩)
              (fun ω r => Gives R ω ⟨some location, t⟩ r.1) st r st' := by
            rw [deriveBy_new stopped present reached unknown] at ran
            exact ((inFrame_ends (ih _) present seen).imp (closed location s t present) fun _ _ =>
              id) st r st' ran
          cases recalls with
          | false => exact new nofun
          | true =>
            cases known : st.memo.find? (·.key == keyOf s location t) with
            | none => exact new fun _ => known
            | some m =>
              rw [deriveBy_known stopped present reached known] at ran
              cases ran
              have same : m.key = keyOf s location t := by simpa using find?_some known
              refine ⟨fun _ => id, id, fun _ ω holds => ⟨ω, .refl ω, holds, fun ω' grows => ?_⟩⟩
              exact (holds.memo m (mem_of_find?_eq_some known) location s t present seen
                same.symm).grow grows

theorem Outcome.ofEnd_result {r : Result} {final : State} {shape : Shape} :
    (Outcome.ofEnd r final).result = .ok shape ↔ final.issues = [] ∧ r.1 = shape := by
  unfold Outcome.ofEnd
  cases issues : final.issues with
  | nil => simp
  | cons issue rest => simp

variable {recalls : Bool} {node : Location} {o : Outcome} {base : Graph}

theorem runBy_ok (present : R.corpus.get? node = some s)
    (ran : runBy recalls R.corpus node t R.options {} = .ok (o, base)) :
    ∃ r st, deriveBy recalls R.corpus R.options (deriveBudget R.corpus (rootTable s node t))
      (some node) (rootTable s node t) .root { graph := {} } = .ok (r, st) ∧
      o = Outcome.ofEnd r st ∧ base = st.graph := by
  rw [runBy_eq recalls present] at ran
  cases derived : deriveBy recalls R.corpus R.options (deriveBudget R.corpus (rootTable s node t))
    (some node) (rootTable s node t) .root
      { graph := {} } with
  | error fault =>
    rw [derived] at ran
    cases ran
  | ok pair =>
    rw [derived] at ran
    cases ran
    exact ⟨pair.1, pair.2, rfl, rfl, rfl⟩

theorem runBy_gives (present : R.corpus.get? node = some s) (seen : R.seen (rootTable s node t))
    (ran : runBy recalls R.corpus node t R.options {} = .ok (o, base)) {shape : Shape}
    (succeeds : o.result = .ok shape) :
    ∃ ω, Settled R ω base ∧ Gives R ω ⟨some node, rootTable s node t⟩ shape := by
  obtain ⟨r, st, derived, rfl, rfl⟩ := runBy_ok present ran
  obtain ⟨silent, rfl⟩ := Outcome.ofEnd_result.mp succeeds
  have ends := deriveBy_ends (W := fun _ => False) recalls (fun _ _ _ _ => False.elim) _ [] _ _
      .root (fun _ => seen) _ _ _ derived
  obtain ⟨ω, -, holds, given⟩ := ends.after silent _ (.start R {})
  refine ⟨ω, fun id key owned => ?_, given ω (.refl ω)⟩
  rcases holds.settled id key owned with ⟨f, member, -⟩ | settled
  · rw [map_eq_nil_iff.mp holds.frames] at member
    cases member
  · exact settled

theorem runBy_succeeds (present : R.corpus.get? node = some s) (seen : R.seen (rootTable s node t))
    (closed : ∀ location s t, R.corpus.get? location = some s → W ⟨some location, t⟩ →
      Clean W (R.alternatives location (t.enter R.corpus location) s.keywords))
    (start : W ⟨some node, rootTable s node t⟩)
    (ran : runBy recalls R.corpus node t R.options {} = .ok (o, base)) :
    ∃ shape, o.result = .ok shape := by
  obtain ⟨r, st, derived, rfl, rfl⟩ := runBy_ok present ran
  have ends := deriveBy_ends recalls closed _ [] _ _ .root (fun _ => seen) _ _ _ derived
  exact ⟨r.1, Outcome.ofEnd_result.mpr ⟨ends.quiet start rfl, rfl⟩⟩

theorem runBy_agree {recalls' : Bool} {o' : Outcome} {base' : Graph}
    (present : R.corpus.get? node = some s) (seen : R.seen (rootTable s node t))
    (ran : runBy recalls R.corpus node t R.options {} = .ok (o, base))
    (ran' : runBy recalls' R.corpus node t R.options {} = .ok (o', base')) {strict : Prop}
    {d : Shift} {g g' : Graph} {p p' : Outcome} (copied : Copied strict d base o g p)
    (copied' : Copied strict d base' o' g' p') (shape : Shape) (succeeds : p.result = .ok shape) :
    ∃ shape', p'.result = .ok shape' ∧ ∀ v, Inhabits g shape v ↔ Inhabits g' shape' v := by
  rw [copied.result] at succeeds
  cases first : o.result with
  | error issues =>
    rw [first] at succeeds
    cases succeeds
  | ok c =>
    rw [first] at succeeds
    obtain rfl := Except.ok.inj succeeds
    obtain ⟨ω, settled, given⟩ := runBy_gives present seen ran first
    obtain ⟨c', second⟩ := runBy_succeeds (W := fun w => ∃ c, Gives R ω w c) present seen
      (fun location s t present => settled.clean present) ⟨c, given⟩ ran'
    obtain ⟨ω', settled', given'⟩ := runBy_gives present seen ran' second
    refine ⟨c'.shift d, by rw [copied'.result, second]; rfl, fun v => ?_⟩
    calc Inhabits g (c.shift d) v
      _ ↔ Inhabits base c v := inhabits_shift copied.closed copied.copies (copied.leaves c first)
      _ ↔ R.means ⟨some node, rootTable s node t⟩ v :=
        given.inhabits_iff copied.closed (copied.leaves c first) settled
      _ ↔ Inhabits base' c' v :=
        (given'.inhabits_iff copied'.closed (copied'.leaves c' second) settled').symm
      _ ↔ Inhabits g' (c'.shift d) v :=
        (inhabits_shift copied'.closed copied'.copies (copied'.leaves c' second)).symm

variable {corpus : Corpus} {options : Options}

/-- Outcomes with their graphs of which both succeed or none, and that accept the same values. -/
structure Outcome.Agrees (o : Outcome) (g : Graph) (o' : Outcome) (g' : Graph) : Prop where
  succeeds : o.result.isOk = o'.result.isOk
  accepts : ∀ s s', o.result = .ok s → o'.result = .ok s' → ∀ v, Inhabits g s v ↔ Inhabits g' s' v

def Realm.from (root : Table)
    (tame : ∀ location s, corpus.get? location = some s → Tame options s.keywords)
    (free : corpus.NulFree) (covered : root.Over corpus)
    (single : ∀ u, root.Leads corpus u → u.OneOwner) : Realm where
  corpus := corpus
  options := options
  seen := root.Leads corpus
  tame := tame
  enter _ location leads := leads.enter location
  resolve _ _ _ _ leads found := leads.resolve found
  legible _ leads := (leads.over covered).legible free
  single := single

/-- Memory inside a derivation makes no difference where nothing is met and required properties stay
required: both derivations succeed or fail, and they accept the same values. -/
theorem run_agrees_without_memory (ordered : corpus.Ordered) (free : corpus.NulFree)
    (tame : ∀ location s, corpus.get? location = some s → Tame options s.keywords)
    (present : corpus.get? node = some s) (built : t.Built corpus)
    (single : ∀ u, (rootTable s node t).Leads corpus u → u.OneOwner) (g : Graph) :
    ∃ o g₁ o' g₂, run corpus node t options g = .ok (o, g₁) ∧
      runBy false corpus node t options g = .ok (o', g₂) ∧ o.Agrees g₁ o' g₂ := by
  have covered : (rootTable s node t).Over corpus := (built.over ordered).push (.resource present)
  have along (recalls : Bool) : RunsAlong True g (runBy recalls corpus node t options {})
      (runBy recalls corpus node t options g) :=
    runBy_along recalls present (.refl _)
      (fun _ location s present => (tame location s present).toDocumentConstants) g
  obtain ⟨o, base, p, g₁, ran, ends, copied⟩ := (along true).ok_of_strict
  obtain ⟨o', base', p', g₂, ran', ends', copied'⟩ := (along false).ok_of_strict
  have forth := runBy_agree (R := .from _ tame free covered single) present .start ran ran' copied copied'
  have back := runBy_agree (R := .from _ tame free covered single) present .start ran' ran copied' copied
  refine ⟨p, g₁, p', g₂, runBy_true corpus node t options ▸ ends, ends', ?_, ?_⟩
  · cases result : p.result with
    | ok c =>
      obtain ⟨c', result', -⟩ := forth c result
      rw [result']
      rfl
    | error issues =>
      cases result' : p'.result with
      | ok c' =>
        obtain ⟨c, odd, -⟩ := back c' result'
        rw [result] at odd
        cases odd
      | error issues' => rfl
  · intro c c' result result' v
    obtain ⟨c'', same, accepts⟩ := forth c result
    obtain rfl := Except.ok.inj (same.symm.trans result')
    exact accepts v

def pointer (name : String) : Schema := .node { ref := "#/$defs/" ++ name }

def whole : Schema := .node { ref := "#" }

def box : Schema := .node
    { type := .one "object", properties? := some [("m",
    some (pointer "M"))], required? := some ["m"] }

def folder : Schema :=
  .node { type := .one "object", properties? := some [("m", some (pointer "M")),
  ("up", some whole)] }

def page : Schema := .node { type := .one "object", properties? := some [("f", some (pointer "F"))] }

def cabinet : Schema := .node {
  type := .one "object"
  properties? := some [("a", some (pointer "F")), ("b", some box)]
  defs? := some [("F", some folder), ("M", some page)] }

def cabinets : Corpus := #[cabinet]

theorem cabinets_ordered : cabinets.Ordered := .of_places (by decide +kernel)

theorem cabinets_nulFree : cabinets.NulFree := .of_places (by decide +kernel)

theorem cabinets_tame (location : Location) (s : Schema) (present : cabinets.get? location = some s) :
    Tame { recursion := .required } s.keywords := by
  have documents : cabinets.DocumentConstants := .of_none (by decide +kernel)
  have plain : ∀ place ∈ cabinets.places, place.2.keywords.allOf?.isNone ∧
      place.2.keywords.oneOf?.isNone := by decide +kernel
  obtain ⟨all, one⟩ := plain _ (Corpus.mem_places present)
  exact ⟨documents _ _ present, isNone_iff_eq_none.mp all, fun _ => isNone_iff_eq_none.mp one, .inl rfl⟩

/-- The page of the box is the one that the folder has, or derived again: then there is one more
handle. -/
theorem cabinets_agree :
    ∃ o g₁ o' g₂, run cabinets ⟨0, []⟩ (.ofDocuments cabinets [0]) { recursion := .required }
      {} = .ok (o, g₁) ∧ runBy false cabinets ⟨0, []⟩ (.ofDocuments cabinets [0])
      { recursion := .required } {} = .ok (o', g₂) ∧ o.Agrees g₁ o' g₂ ∧ o.result.isOk = true ∧
      g₁.handles.size < g₂.handles.size := by
  have both : (do
      let r ← run cabinets ⟨0, []⟩ (.ofDocuments cabinets [0]) { recursion := .required } {}
      let r' ← runBy false cabinets ⟨0, []⟩ (.ofDocuments cabinets [0]) { recursion := .required } {}
      return (r.1.result.isOk, decide (r.2.handles.size < r'.2.handles.size))) = Except.ok
        (true, true) := by cbv
  obtain ⟨⟨o, g₁⟩, first, rest⟩ := bind_eq_ok_iff.mp both
  obtain ⟨⟨o', g₂⟩, second, ends⟩ := bind_eq_ok_iff.mp rest
  obtain ⟨succeeds, more⟩ := Prod.mk.inj (Except.ok.inj ends)
  have anonymous : ∀ place ∈ cabinets.places, place.2.keywords.id = "" := by decide +kernel
  have covered : (rootTable cabinet ⟨0, []⟩ (.ofDocuments cabinets [0])).Over cabinets :=
    ((Table.Built.ofDocuments [0]).over cabinets_ordered).push (.resource rfl)
  obtain ⟨p, h₁, p', h₂, ran, ran', agrees⟩ :=
    run_agrees_without_memory cabinets_ordered cabinets_nulFree cabinets_tame rfl
    (.ofDocuments [0]) (fun u leads => (leads.over covered).oneOwner fun _ _ present =>
    anonymous _ (Corpus.mem_places present)) {}
  obtain ⟨rfl, rfl⟩ := Prod.mk.inj (Except.ok.inj (ran.symm.trans first))
  obtain ⟨rfl, rfl⟩ := Prod.mk.inj (Except.ok.inj (ran'.symm.trans second))
  exact ⟨_, _, _, _, first, second, agrees, succeeds, of_decide_eq_true more⟩

/-- Where required properties that lead back become optional, memory makes a difference: known, the
page of the box leads back to no open frame; derived again, it leads back to the whole. -/
theorem cabinets_told_apart :
    ∃ o g₁ o' g₂, run cabinets ⟨0, []⟩ (.ofDocuments cabinets [0]) {} {} = .ok (o, g₁) ∧
      runBy false cabinets ⟨0, []⟩ (.ofDocuments cabinets [0]) {} {} = .ok (o', g₂) ∧
      ¬ o.Agrees g₁ o' g₂ := by
  have first : (do
      let r ← run cabinets ⟨0, []⟩ (.ofDocuments cabinets [0]) {} {}
      return (r.1.result, r.2.target? 1)) = Except.ok
        (.ok (.handle 1), some (.object 3 [⟨"a", .handle 0, true, none⟩,
        ⟨"b", .object 2 [⟨"m", .object 0 [⟨"f", .handle 0, true, none⟩] none, false, none⟩] none,
        true, none⟩] none)) := by cbv
  have second : (do
      let r ← runBy false cabinets ⟨0, []⟩ (.ofDocuments cabinets [0]) {} {}
      return (r.1.result, r.2.target? 1)) = Except.ok
        (.ok (.handle 1), some (.object 5 [⟨"a", .handle 0, true, none⟩,
        ⟨"b", .object 4 [⟨"m", .handle 2, true, none⟩] none, true, none⟩] none)) := by cbv
  obtain ⟨⟨o, g₁⟩, ran, ends⟩ := bind_eq_ok_iff.mp first
  obtain ⟨⟨o', g₂⟩, ran', ends'⟩ := bind_eq_ok_iff.mp second
  obtain ⟨result, target⟩ := Prod.mk.inj (Except.ok.inj ends)
  obtain ⟨result', target'⟩ := Prod.mk.inj (Except.ok.inj ends')
  refine ⟨o, g₁, o', g₂, ran, ran', fun agrees => ?_⟩
  have accepted : Inhabits g₂ (.handle 1) (.map .values [("b", .map .values [])]) := by
    refine .bound target' (.object rfl ?_ ?_ (by rintro _ ⟨⟩))
    · simp
    · intro p member x found
      simp only [mem_cons, not_mem_nil, or_false] at member
      rcases member with rfl | rfl
      · cases found
      · cases found
        exact .object rfl (by simp) (fun p _ x found => by cases found) (by rintro _ ⟨⟩)
  have refused := (agrees.accepts _ _ result result' _).mpr accepted
  rw [Inhabits.handle_iff] at refused
  obtain ⟨entries, keyed, -, declared, -⟩ := Inhabits.object_iff.mp (refused _ target)
  cases keyed
  obtain ⟨inner, keyed, present, -⟩ :=
    Inhabits.object_iff.mp (declared _ (mem_cons_of_mem _ mem_cons_self) _ rfl)
  cases keyed
  cases present _ mem_cons_self rfl

end Derivation

end JsonShape
