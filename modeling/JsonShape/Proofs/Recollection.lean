import JsonShape.Derivation.Cache
import JsonShape.Proofs.Lockstep
import Mathlib

/-! Derivations through a memory. What is remembered is a copy, with its numbers moved, of what a
new derivation gives. -/
namespace JsonShape
open List Option

/-- The constants of all schemas are values of documents. -/
def Corpus.DocumentConstants (corpus : Corpus) : Prop :=
  ∀ location s, corpus.get? location = some s → s.keywords.DocumentConstants

theorem Corpus.DocumentConstants.of_none {corpus : Corpus}
    (none : ∀ place ∈ corpus.places, place.2.keywords.const?.isNone = true ∧
      place.2.keywords.enum?.isNone = true) : corpus.DocumentConstants := by
  intro location s present
  obtain ⟨const, enum⟩ := none _ (Corpus.mem_places present)
  rw [isNone_iff_eq_none] at const enum
  exact ⟨fun v found => (nomatch const.symm.trans found), fun vs found => (nomatch enum.symm.trans found)⟩

namespace Derivation

variable {corpus : Corpus} {options : Options} {node : Location} {s : Schema} {t t' : Table}
  {strict : Prop} {g g' : Graph} {o : Outcome} {r : Result} {st : State}

def Outcome.ofEnd (r : Result) (st : State) : Outcome :=
  ⟨if st.issues.isEmpty then .ok r.1 else .error st.issues, st.warnings⟩

def rootTable (s : Schema) (node : Location) (t : Table) : Table := t.push (.resource s.keywords.id node)

theorem Outcome.ofEnd_ok {s : Shape} (equal : (Outcome.ofEnd r st).result = .ok s) : r.1 = s := by
  unfold Outcome.ofEnd at equal
  split_ifs at equal
  exact Except.ok.inj equal

theorem Outcome.ofEnd_moved {st' : State} (issues : st'.issues = st.issues) (d : Shift) :
    (Outcome.ofEnd (r.1.shift d, r.2) st').result = (Outcome.ofEnd r st).result.map (Shape.shift d) := by
  unfold Outcome.ofEnd
  rw [issues]
  split_ifs <;> rfl

theorem runBy_eq (recalls : Bool) (present : corpus.get? node = some s) :
    runBy recalls corpus node t options g =
      (deriveBy recalls corpus options (deriveBudget corpus (rootTable s node t)) (some node)
      (rootTable s node t) .root { graph := g }).map fun (r, st) =>
      (Outcome.ofEnd r st, st.graph) := by
  unfold runBy
  rw [present]
  simp only [map_some, getD_some]
  rw [← rootTable]
  change (deriveBy _ _ _ _ _ _ _ _ >>= _) = _
  cases deriveBy recalls corpus options (deriveBudget corpus (rootTable s node t)) (some node)
    (rootTable s node t) .root { graph := g } <;> rfl

def startTable (corpus : Corpus) (node : Location) (t : Table) : Table :=
  t.push (.resource (((corpus.get? node).map (·.keywords.id)).getD "") node)

theorem run_eq :
    run corpus node t options g =
      (derive corpus options (deriveBudget corpus (startTable corpus node t)) (some node)
      (startTable corpus node t) .root { graph := g }).map fun (r, st) =>
      (Outcome.ofEnd r st, st.graph) := by
  change (derive corpus options (deriveBudget corpus (startTable corpus node t)) (some node)
    (startTable corpus node t) .root _ >>= _) = _
  cases derive corpus options (deriveBudget corpus (startTable corpus node t)) (some node)
    (startTable corpus node t) .root { graph := g } <;> rfl

theorem mirrors_start (g : Graph) (strict : Prop) :
    Mirrors g strict [] { graph := {} } { graph := g } where
  sound := ⟨⟨rfl, nodup_nil, nofun⟩, rfl, nofun, .nil, nofun, nofun⟩
  next := (Nat.zero_add _).symm
  size := (Nat.zero_add _).symm
  targets _ := g.target?_eq_none (Nat.le_add_left _ _)
  old _ _ := rfl
  issues := rfl
  warnings := rfl
  reported := rfl
  nextId := rfl
  stopped := rfl
  stack := .nil
  memo := rfl

structure Copied (strict : Prop) (d : Shift) (base : Graph) (o : Outcome) (g : Graph)
    (o' : Outcome) : Prop where
  closed : base.Closed strict
  leaves : ∀ s, o.result = .ok s → s.Leaves strict base.Bound
  copies : Graph.Copies d base g
  warnings : o'.warnings = o.warnings
  result : o'.result = o.result.map (Shape.shift d)

inductive RunsAlong (strict : Prop) (g : Graph) :
    Except Fault (Outcome × Graph) → Except Fault (Outcome × Graph) → Prop
  | ok {o o' : Outcome} {base grown : Graph} (copied : Copied strict g.shift base o grown o')
      (grows : g.Extends grown) :
      RunsAlong strict g (.ok (o, base)) (.ok (o', grown))
  | fault (lenient : ¬ strict) : RunsAlong strict g (.error .incomparable) (.error .incomparable)

theorem RunsAlong.ok_of_strict {first second : Except Fault (Outcome × Graph)}
    (along : RunsAlong True g first second) :
    ∃ o base o' g', first = .ok (o, base) ∧ second = .ok (o', g') ∧
      Copied True g.shift base o g' o' := by
  cases along with
  | ok copied _ => exact ⟨_, _, _, _, rfl, rfl, copied⟩
  | fault lenient => exact absurd trivial lenient

theorem runBy_along (recalls : Bool) (present : corpus.get? node = some s)
    (alike : (rootTable s node t).Alike (rootTable s node t'))
    (documents : strict → ∀ location s, corpus.get? location = some s →
      s.keywords.DocumentConstants) (g : Graph) :
    RunsAlong strict g (runBy recalls corpus node t options {})
      (runBy recalls corpus node t' options g) := by
  let c : Course := ⟨corpus, options, recalls, g, strict, _, _,
      Table.stocked_stock corpus (rootTable s node t),
    Table.stocked_stock corpus (rootTable s node t'), documents⟩
  have ends := Pairing.derive_recurs c.lawful ⟨room_start corpus (rootTable s node t),
      room_start corpus (rootTable s node t')⟩
    (fun _ => False) (some node) _ _ .root
    (fun _ => ⟨alike, Table.drawn_stock corpus _, Table.drawn_stock corpus _⟩) _ _
    (mirrors_start g strict) fun _ => False.elim
  rw [runBy_eq recalls present, runBy_eq recalls present]
  change c.pairing.Ends [] _ _ (deriveBy recalls corpus options _ (some node) (rootTable s node t) .root _)
    (deriveBy recalls corpus options _ (some node) (rootTable s node t') .root _) at ends
  revert ends
  generalize deriveBy recalls corpus options _ (some node) (rootTable s node t) .root _ = first,
    deriveBy recalls corpus options _ (some node) (rootTable s node t') .root _ = second
  rintro (@⟨r, r', st, st', mirrors, -, ⟨leaves, moved⟩, low⟩ | ⟨rfl, lenient⟩)
  · have bound : st.Live ≤ st.graph.Bound := by
      rintro id (bound | ⟨f, member, -⟩)
      · exact bound
      · rw [map_eq_nil_iff.mp mirrors.sound.frames] at member
        cases member
    refine .ok ⟨fun id s found => ?_, fun s equal => ?_, fun id s found => ?_, mirrors.warnings, ?_⟩
      ⟨?_, mirrors.old⟩
    · exact (mirrors.sound.bound id s found).mono bound
    · rw [← Outcome.ofEnd_ok equal]
      exact leaves.mono bound
    · rw [mirrors.targets id, found]
      rfl
    · rw [show r' = (r.1.shift g.shift, r.2) from Prod.ext moved low]
      exact Outcome.ofEnd_moved mirrors.issues _
    · exact mirrors.size ▸ Nat.le_add_left _ _
  · exact .fault lenient

theorem run_along (present : corpus.get? node = some s)
    (alike : (rootTable s node t).Alike (rootTable s node t'))
    (documents : strict → ∀ location s, corpus.get? location = some s →
      s.keywords.DocumentConstants) (g : Graph) :
    RunsAlong strict g (run corpus node t options {}) (run corpus node t' options g) := by
  rw [← runBy_true, ← runBy_true]
  exact runBy_along true present alike documents g

/-- Answers that cannot be told apart, each with its graph. -/
structure Outcome.Same (o : Outcome) (g : Graph) (o' : Outcome) (g' : Graph) : Prop where
  warnings : o.warnings = o'.warnings
  issues : ∀ issues, o.result = .error issues ↔ o'.result = .error issues
  accepts : ∀ s s', o.result = .ok s → o'.result = .ok s' → ∀ v, Inhabits g s v ↔ Inhabits g' s' v

theorem Copied.same {d d' : Shift} {base : Graph} {o₁ o₂ : Outcome} (first : Copied strict d base o g o₁)
    (second : Copied strict d' base o g' o₂) : o₁.Same g o₂ g' := by
  have warnings : o₁.warnings = o₂.warnings := first.warnings.trans second.warnings.symm
  have results := first.result
  have results' := second.result
  have leaves := first.leaves
  cases ending : o.result with
  | error issues =>
    rw [ending] at results results'
    refine ⟨warnings, fun _ => by rw [results, results']; rfl, fun s s' equal => ?_⟩
    rw [results] at equal
    cases equal
  | ok s =>
    rw [ending] at results results'
    refine ⟨warnings,
      fun _ => by rw [results, results']; exact ⟨nofun, nofun⟩, fun s₁ s₂ equal equal' v => ?_⟩
    rw [results] at equal
    rw [results'] at equal'
    rw [← Except.ok.inj equal, ← Except.ok.inj equal', inhabits_shift first.closed first.copies
      (leaves s ending),
      inhabits_shift first.closed second.copies (leaves s ending)]

theorem rootTable_alike (ordered : corpus.Ordered) (free : corpus.NulFree)
    (present : corpus.get? node = some s) (built : t.Built corpus) (built' : t'.Built corpus)
    (single : t'.OneOwner)
    (equal : (rootTable s node t).fingerprint = (rootTable s node t').fingerprint) :
    (rootTable s node t).Alike (rootTable s node t') := by
  have legible : ∀ u : Table, u.Built corpus → (rootTable s node u).Legible corpus :=
    fun u built => ((built.over ordered).push (.resource present)).legible free
  exact (legible t built).alike (legible t' built') equal (single.push_resource rfl)

/-- What may be remembered for a request: a copy of what is derived on the empty graph, with some
table of the same fingerprint. -/
structure Recorded (corpus : Corpus) (g : Graph) (r : Request) (o : Outcome) : Prop where
  provenance : ∃ s t d base o₀, corpus.get? r.node = some s ∧ t.Built corpus ∧ t.OneOwner ∧
    (rootTable s r.node t).fingerprint = r.fingerprint ∧
    run corpus r.node t r.options {} = .ok (o₀, base) ∧
    Copied corpus.DocumentConstants d base o₀ g o

theorem Recorded.extend {r : Request} (recorded : Recorded corpus g r o) (grows : g.Extends g') :
    Recorded corpus g' r o := by
  obtain ⟨s, t, d, base, o₀, present, built, single, equal, ran, copied⟩ := recorded.provenance
  exact ⟨s, t, d, base, o₀, present, built, single, equal, ran,
    { copied with copies := copied.copies.extend grows }⟩

theorem recorded_run (present : corpus.get? node = some s) (built : t.Built corpus)
    (single : t.OneOwner) (ran : run corpus node t options g = .ok (o, g')) :
    Recorded corpus g' ⟨node, options, (rootTable s node t).fingerprint⟩ o ∧ g.Extends g' := by
  have along : RunsAlong corpus.DocumentConstants g (run corpus node t options {})
      (run corpus node t options g) :=
    run_along present (.refl _) id g
  rw [ran] at along
  generalize started : run corpus node t options {} = first at along
  cases along with
  | ok copied grows => exact ⟨⟨s, t, _, _, _, present, built, single, rfl, started, copied⟩, grows⟩

theorem Recorded.answers (ordered : corpus.Ordered) (free : corpus.NulFree)
    (present : corpus.get? node = some s) (built : t.Built corpus) (single : t.OneOwner)
    (recorded : Recorded corpus g ⟨node, options, (rootTable s node t).fingerprint⟩ o) :
    ∃ o' g', run corpus node t options g = .ok (o', g') ∧ o.Same g o' g' := by
  obtain ⟨s', u, d, base, o₀, present', built', single', equal, ran, copied⟩ := recorded.provenance
  obtain rfl : s' = s := some.inj (present'.symm.trans present)
  have alike := rootTable_alike ordered free present built' built single equal
  have along : RunsAlong corpus.DocumentConstants g (run corpus node u options {})
      (run corpus node t options g) :=
    run_along present alike id g
  rw [ran] at along
  generalize ended : run corpus node t options g = second at along
  cases along with
  | ok copied' grows => exact ⟨_, _, rfl, copied.same copied'⟩

def Cache.Faithful (corpus : Corpus) (g : Graph) (c : Cache) : Prop :=
  ∀ entry ∈ c.entries, Recorded corpus g entry.1 entry.2

namespace Cache

variable {c c' : Cache} {r : Request}

theorem Faithful.find? (faithful : c.Faithful corpus g) (found : c.find? r = some (o, c')) :
    Recorded corpus g r o ∧ c'.Faithful corpus g := by
  obtain ⟨entry, there, equal⟩ := map_eq_some_iff.mp found
  obtain ⟨rfl, rfl⟩ := Prod.mk.inj equal
  have member := mem_of_find?_eq_some there
  have key : entry.1 = r := by simpa using find?_some there
  refine ⟨key ▸ faithful entry member, ?_⟩
  intro other listed
  rcases mem_cons.mp listed with rfl | kept
  · exact faithful other member
  · exact faithful other (mem_filter.mp kept).1

theorem Faithful.add (faithful : c.Faithful corpus g) (recorded : Recorded corpus g r o) :
    (c.add r o).Faithful corpus g := by
  intro entry member
  rcases mem_cons.mp (mem_of_mem_take member) with rfl | kept
  · exact recorded
  · exact faithful entry (mem_filter.mp kept).1

theorem derive_eq (present : corpus.get? node = some s) : c.derive corpus node t options g =
    match c.find? ⟨node, options, (rootTable s node t).fingerprint⟩ with
    | some (o, c) => .ok ((o, true, c), g)
    | none =>
      (run corpus node t options g).map fun (o, g') =>
        ((o, false, c.add ⟨node, options, (rootTable s node t).fingerprint⟩ o), g') := by
  unfold derive
  rw [present]
  simp only [map_some, getD_some]
  rw [← rootTable]
  cases c.find? ⟨node, options, (rootTable s node t).fingerprint⟩ with
  | some found => rfl
  | none =>
    change (run corpus node t options g >>= _) = _
    cases run corpus node t options g <;> rfl

/-- The memories that calls lead to, with their graphs. Between calls the graph may grow. -/
inductive Reached (corpus : Corpus) : Cache → Graph → Prop
  | start (size : Nat) (g : Graph) : Reached corpus ⟨size, []⟩ g
  | purge {c : Cache} {g : Graph} (reached : Reached corpus c g) : Reached corpus c.purge g
  | grow {c : Cache} {g g' : Graph} (reached : Reached corpus c g) (grows : g.Extends g') :
      Reached corpus c g'
  | derive {c c' : Cache} {g g' : Graph} {node : Location} {s : Schema} {t : Table}
      {options : Options} {o : Outcome} {hit : Bool}
      (reached : Reached corpus c g) (present : corpus.get? node = some s) (built : t.Built corpus)
      (single : t.OneOwner)
      (ran : c.derive corpus node t options g = .ok ((o, hit, c'), g')) : Reached corpus c' g'

theorem Reached.faithful (reached : Reached corpus c g) : c.Faithful corpus g := by
  induction reached with
  | start => exact nofun
  | purge => exact nofun
  | grow _ grows ih => exact fun entry member => (ih entry member).extend grows
  | @derive c c' g g' node s t options o hit _ present built single ran ih =>
    rw [derive_eq present] at ran
    cases found : c.find? ⟨node, options, (rootTable s node t).fingerprint⟩ with
    | some pair =>
      rw [found] at ran
      obtain ⟨rfl, rfl⟩ : pair.2 = c' ∧ g = g' := by
        obtain ⟨first, second⟩ := Prod.mk.inj (Except.ok.inj ran)
        exact ⟨(Prod.mk.inj (Prod.mk.inj first).2).2, second⟩
      exact (ih.find? found).2
    | none =>
      rw [found] at ran
      dsimp only at ran
      cases ended : run corpus node t options g with
      | error e =>
        rw [ended] at ran
        cases ran
      | ok pair =>
        rw [ended] at ran
        cases ran
        obtain ⟨recorded, grows⟩ := recorded_run present built single ended
        exact Faithful.add (fun entry member => (ih entry member).extend grows) recorded

/-- An answer through a memory and one without. Both can break off, but only where a constant is no
value of a document. -/
inductive SameAnswer (corpus : Corpus) :
    Except Fault ((Outcome × Bool × Cache) × Graph) → Except Fault (Outcome × Graph) → Prop
  | answer {o o' : Outcome} {hit : Bool} {c : Cache} {g g' : Graph} (same : o.Same g o' g') :
      SameAnswer corpus (.ok ((o, hit, c), g)) (.ok (o', g'))
  | fault (odd : ¬ corpus.DocumentConstants) :
      SameAnswer corpus (.error .incomparable) (.error .incomparable)

/-- Whatever a memory has been asked before, it answers like a new derivation: with the same issues,
warnings and accepted values. -/
theorem derive_transparent (ordered : corpus.Ordered) (free : corpus.NulFree)
    (reached : Reached corpus c g) (present : corpus.get? node = some s) (built : t.Built corpus)
    (single : t.OneOwner) (options : Options) :
    SameAnswer corpus (c.derive corpus node t options g) (run corpus node t options g) := by
  rw [derive_eq present]
  cases found : c.find? ⟨node, options, (rootTable s node t).fingerprint⟩ with
  | some pair =>
    have recorded := (reached.faithful.find? found).1
    obtain ⟨o', g', ran, same⟩ := recorded.answers ordered free present built single
    rw [ran]
    exact .answer same
  | none =>
    have along : RunsAlong corpus.DocumentConstants g (run corpus node t options {})
        (run corpus node t options g) :=
      run_along present (.refl _) id g
    generalize run corpus node t options {} = first at along
    generalize run corpus node t options g = second at along
    cases along with
    | ok copied grows => exact .answer (copied.same copied)
    | fault odd => exact .fault odd

def link : Schema := .node
    { id := "a", type := .one "object", properties? := some [("next",
    some (.node { ref := "#" }))] }

def chain : Corpus := #[link]

theorem chain_ordered : chain.Ordered := .of_places (by decide +kernel)

theorem chain_nulFree : chain.NulFree := .of_places (by decide +kernel)

/-- The second call is answered from memory. -/
theorem chain_recalled :
    ∃ c g, Reached chain c g ∧
      (∃ o c' g', c.derive chain ⟨0, []⟩ (.ofDocuments chain [0]) {} g = .ok ((o, true, c'), g')) ∧
      SameAnswer chain (c.derive chain ⟨0, []⟩ (.ofDocuments chain [0]) {} g)
      (run chain ⟨0, []⟩ (.ofDocuments chain [0]) {} g) := by
  have single : (Table.ofDocuments chain [0]).OneOwner :=
    (Table.owned_ofDocuments chain_ordered [0]).oneOwner
  have twice : (do
      let ((_, _, c), g) ← derive ⟨8, []⟩ chain ⟨0, []⟩ (.ofDocuments chain [0]) {} {}
      let ((_, hit, _), _) ← c.derive chain ⟨0, []⟩ (.ofDocuments chain [0]) {} g
      return hit) = Except.ok true := by cbv
  obtain ⟨⟨⟨o, hit, c⟩, g⟩, first, rest⟩ := bind_eq_ok_iff.mp twice
  obtain ⟨⟨⟨o', hit', c'⟩, g'⟩, second, ends⟩ := bind_eq_ok_iff.mp rest
  have reached : Reached chain c g := .derive (.start 8 {}) rfl (.ofDocuments [0]) single first
  refine ⟨c, g, reached, ⟨o', c', g', ?_⟩, derive_transparent chain_ordered chain_nulFree reached
    rfl (.ofDocuments [0]) single {}⟩
  rw [second, Except.ok.inj ends]

def clashing : Corpus := #[
  .node { ref := "a#b\x00c" },
  .node { id := "a", defs? := some [("b\x00c", some (.node { type := .one "string" }))] },
  .node { id := "a" },
  .node { id := "z", defs? := some [("b\x00c", some (.node { type := .one "number" }))] },
  .node { id := "a\x00b", defs? := some [("c", some (.node { type := .one "boolean" }))] }]

/-- Then a shape is remembered where a new derivation finds that the reference leads nowhere. -/
theorem clashing_told_apart :
    ∃ c g, Reached clashing c g ∧
      ¬ SameAnswer clashing (c.derive clashing ⟨0, []⟩ (.ofDocuments clashing [2, 3, 4]) {} g)
      (run clashing ⟨0, []⟩ (.ofDocuments clashing [2, 3, 4]) {} g) := by
  have calls : (do
      let ((_, _, c), g) ← derive ⟨8, []⟩ clashing ⟨0, []⟩ (.ofDocuments clashing [1, 2, 3, 4]) {} {}
      let ((o, _, _), _) ← c.derive clashing ⟨0, []⟩ (.ofDocuments clashing [2, 3, 4]) {} g
      let (o', _) ← run clashing ⟨0, []⟩ (.ofDocuments clashing [2, 3, 4]) {} g
      return (o.result.isOk, o'.result.isOk)) = Except.ok (true, false) := by cbv
  obtain ⟨⟨⟨_, hit, c⟩, g⟩, first, rest⟩ := bind_eq_ok_iff.mp calls
  obtain ⟨⟨⟨o, hit', c'⟩, g'⟩, second, rest⟩ := bind_eq_ok_iff.mp rest
  obtain ⟨⟨o', g''⟩, third, ends⟩ := bind_eq_ok_iff.mp rest
  obtain ⟨found, failed⟩ := Prod.mk.inj (Except.ok.inj ends)
  have single : (Table.ofDocuments clashing [1, 2, 3, 4]).OneOwner := of_decide_eq_true (by cbv)
  refine ⟨c, g, .derive (.start 8 {}) rfl (.ofDocuments _) single first, fun same => ?_⟩
  rw [second, third] at same
  cases same with
  | answer same =>
    cases ending : o'.result with
    | ok s =>
      rw [ending] at failed
      cases failed
    | error issues =>
      rw [(same.issues issues).mpr ending] at found
      cases found

end Cache

end Derivation

end JsonShape
