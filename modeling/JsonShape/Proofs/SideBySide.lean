import JsonShape.Proofs.Frames
import JsonShape.Proofs.Union
import Mathlib.Order.Monotone.Defs

/-! Two derivations of the same schemas side by side. What relates their shapes is kept by every
rule of derivation as soon as it is kept by building shapes and by opening and closing frames. -/
namespace JsonShape
open List Shape Derivation

def Shape.isUnnumbered : Shape → Bool
  | any | never | null | boolean | number _ | string | binary => true
  | _ => false

theorem Shape.isFlat_of_isUnnumbered {s : Shape} (unnumbered : s.isUnnumbered = true) :
    s.isFlat = true := by
  cases s with
  | any | never | null | boolean | number _ | string | binary => rfl
  | _ => cases unnumbered

namespace Derivation

theorem find?_related {α : Type} {R : α → α → Prop} {test : α → Bool} {as bs : List α}
    (related : Forall₂ R as bs) (blind : ∀ a b, R a b → test b = test a) :
    Option.Rel R (as.find? test) (bs.find? test) := by
  induction related with
  | nil => exact .none
  | @cons a b _ _ here _ ih =>
    rw [find?_cons, find?_cons, blind a b here]
    cases test a with
    | true => exact .some here
    | false => exact ih

/-- Whether a property may be absent: not required, or leading back to its own container, and not
filled in. -/
def mayLack (options : Options) (required near far filled : Bool) : Bool :=
  (!required || (near && options.recursion == .optional && far)) && !(options.mode == .response && filled)

/-- What is told of a combinator that cannot be expressed. -/
inductive Complaint : String → Prop
  | unlisted : Complaint "anyOf on an object without properties"
  | undeclared (name : String) :
      Complaint ("anyOf branch requires undeclared property " ++ Text.Quoted.quote name)

/-- What is compared of two derivations. -/
structure Pairing where
  corpus : Corpus
  options : Options
  options' : Options
  /-- Whether known shapes are looked up. -/
  recalls : Bool := true
  /-- The tables that they may come to. -/
  table : Table → Table → Prop
  /-- The budgets of both while frames are open for some keys. -/
  budget : List Key → Nat → Nat → Prop
  /-- Their states while frames are open for some keys. -/
  state : List Key → State → State → Prop
  /-- The frames that are open for a schema. -/
  frame : Frame → Frame → Prop := Eq
  /-- The handles that the shapes of the first one may have. -/
  live : State → Nat → Prop := fun _ _ => True
  /-- The reasons for which both may break off. -/
  fault : Fault → Prop
  /-- Their shapes while some handles are live. -/
  shape : (Nat → Prop) → Shape → Shape → Prop
  /-- Whether a property may be absent. -/
  flag : Bool → Bool → Prop
  /-- The names that the properties of an object may have, together. -/
  names : List String → Prop
  constant : Value → Prop
  /-- Whether shapes are met. -/
  meets : Prop

namespace Pairing

variable (P : Pairing)

structure Result (live : Nat → Prop) (r r' : Result) : Prop where
  shape : P.shape live r.1 r'.1
  low : r'.2 = r.2

structure Property (live : Nat → Prop) (p p' : JsonShape.Property Shape) : Prop where
  name : p'.name = p.name
  shape : P.shape live p.shape p'.shape
  optional : P.flag p.optional p'.optional
  default : p'.default? = p.default?

structure Memo (live : Nat → Prop) (m m' : Memo) : Prop where
  key : m'.key = m.key
  shape : P.shape live m.shape m'.shape
  frame : m'.frame? = m.frame?

/-- The keywords of schemas that both can derive. -/
structure Admits (k : Keywords Schema) : Prop where
  names : ∀ entries, k.properties? = some entries → P.names (entries.map (·.1))
  const : ∀ v, k.const? = some v → P.constant v
  enum : ∀ vs, k.enum? = some vs → ∀ v ∈ vs, P.constant v
  allOf : k.allOf? = none ∨ P.meets
  oneOf : k.type.has "object" = true → k.oneOf? = none ∨ P.meets

/-- Two results of steps: both break off for one reason, or both go on with what is related, and
handles stay live. -/
inductive Ends {α β : Type} (keys : List Key) (live : Nat → Prop) (R : (Nat → Prop) → α → β → Prop) :
    Except Fault (α × State) → Except Fault (β × State) → Prop
  | ok {a : α} {b : β} {st st' : State} (states : P.state keys st st') (grows : live ≤ P.live st)
      (results : R (P.live st) a b) :
      Ends keys live R (.ok (a, st)) (.ok (b, st'))
  | fault {e : Fault} (reason : P.fault e) : Ends keys live R (.error e) (.error e)

def Parallel {α β : Type} (keys : List Key) (live : Nat → Prop) (R : (Nat → Prop) → α → β → Prop)
    (f : Derive α) (f' : Derive β) : Prop :=
  ∀ st st', P.state keys st st' → live ≤ P.live st → P.Ends keys live R (f st) (f' st')

variable {P} {α β γ ε ι : Type} {keys : List Key} {live live' : Nat → Prop}
  {R : (Nat → Prop) → α → β → Prop} {Q : (Nat → Prop) → γ → ε → Prop}

theorem Ends.weaken {r : Except Fault (α × State)} {r' : Except Fault (β × State)}
    (ends : P.Ends keys live' R r r') (larger : live ≤ live') : P.Ends keys live R r r' := by
  cases ends with
  | ok states grows results => exact .ok states (larger.trans grows) results
  | fault reason => exact .fault reason

theorem Ends.imp {r : Except Fault (α × State)} {r' : Except Fault (β × State)}
    {Q : (Nat → Prop) → α → β → Prop} (ends : P.Ends keys live R r r')
    (weaker : ∀ live a b, R live a b → Q live a b) : P.Ends keys live Q r r' := by
  cases ends with
  | ok states grows results => exact .ok states grows (weaker _ _ _ results)
  | fault reason => exact .fault reason

namespace Parallel

theorem pure {a : α} {b : β} (results : ∀ live', live ≤ live' → R live' a b) :
    P.Parallel keys live R (Pure.pure a) (Pure.pure b) :=
  fun _ _ states below => .ok states below (results _ below)

theorem bind {f : Derive α} {f' : Derive β} {next : α → Derive γ} {next' : β → Derive ε}
    (first : P.Parallel keys live R f f')
    (second : ∀ a b live', live ≤ live' → R live' a b → P.Parallel keys live' Q (next a) (next' b)) :
    P.Parallel keys live Q (f >>= next) (f' >>= next') := by
  intro st st' states below
  change P.Ends keys live Q (f st >>= fun (a, s) => next a s) (f' st' >>= fun (b, s) => next' b s)
  have ends := first st st' states below
  revert ends
  generalize f st = result, f' st' = result'
  rintro (@⟨a, b, st₁, st₁', states₁, grows, results⟩ | reason)
  · exact (second a b _ grows results st₁ st₁' states₁ le_rfl).weaken grows
  · exact .fault reason

theorem mapM {f : ι → Derive α} {f' : ι → Derive β} {items : List ι} (mono : Monotone R)
    (each : ∀ i ∈ items, ∀ live, P.Parallel keys live R (f i) (f' i)) :
    P.Parallel keys live (fun live => Forall₂ (R live)) (items.mapM f) (items.mapM f') := by
  induction items generalizing live with
  | nil => exact pure fun _ _ => .nil
  | cons i rest ih =>
    rw [mapM_cons, mapM_cons]
    refine bind (each i mem_cons_self live) fun a b live₁ _ here => ?_
    refine bind (ih (forall_mem_cons.mp each).2) fun as bs live₂ larger later => ?_
    exact pure fun live₃ larger' => .cons (mono (larger.trans larger') a b here) (later.imp (mono larger'))

end Parallel

theorem Admits.of_all (names : ∀ list, P.names list) (constants : ∀ v, P.constant v)
    (meets : P.meets) (k : Keywords Schema) : P.Admits k :=
  ⟨fun _ _ => names _, fun v _ => constants v, fun _ _ v _ => constants v, .inr meets, fun _ => .inr meets⟩

theorem Property.eq {p p' : JsonShape.Property Shape} (related : P.Property live p p')
    (shape : p'.shape = p.shape) (optional : p'.optional = p.optional) : p' = p := by
  obtain ⟨name, -, -, default⟩ := related
  cases p
  cases p'
  simp_all

variable (P)

/-- What entering schemas and resolving references keep. -/
structure Tables : Prop where
  enterSchema {t t' : Table} {location : Location} {s : Schema}
    (present : P.corpus.get? location = some s) (seen : P.table t t') :
    P.table (t.enterSchema s.keywords location t.scope) (t'.enterSchema s.keywords location t'.scope)
  resolve {t t' : Table} (seen : P.table t t') (key : String) :
    Option.Rel (fun r r' => r'.1 = r.1 ∧ (r.1.isSome = true → P.table r.2 r'.2))
    (t.resolve P.corpus key) (t'.resolve P.corpus key)
  key {t t' : Table} (seen : P.table t t') (location : Location) (s : Schema) :
      keyOf s location t' = keyOf s location t
  aliasEnd {t t' : Table} (seen : P.table t t') (budget : Nat) (location : Location) :
    aliasEnd? P.corpus budget [] t' location = aliasEnd? P.corpus budget [] t location

/-- Both derivations may see the same tables. -/
theorem Tables.of_same {P : Pairing} {within : Table → Prop}
    (same : ∀ t t', P.table t t' ↔ t' = t ∧ within t)
    (enters : ∀ {t : Table} {location : Location} {s : Schema}, P.corpus.get? location = some s →
      within t → within (t.enterSchema s.keywords location t.scope))
    (resolves : ∀ {t u : Table} {key : String} {node? : Option Location}, within t →
      t.resolve P.corpus key = some (node?, u) → within u) : P.Tables where
  enterSchema present seen := by
    obtain ⟨rfl, inside⟩ := (same _ _).mp seen
    exact (same _ _).mpr ⟨rfl, enters present inside⟩
  resolve {t t'} seen key := by
    obtain ⟨rfl, inside⟩ := (same _ _).mp seen
    cases found : t'.resolve P.corpus key with
    | none => exact .none
    | some target => exact .some ⟨rfl, fun _ => (same _ _).mpr ⟨rfl, resolves inside found⟩⟩
  key seen location s := by rw [((same _ _).mp seen).1]
  aliasEnd seen budget location := by rw [((same _ _).mp seen).1]

/-- What building shapes, reporting, and opening and closing frames keep. -/
structure Lawful : Prop extends Tables P where
  mono : Monotone P.shape
  admits {location : Location} {s : Schema} (present : P.corpus.get? location = some s) :
      P.Admits s.keywords
  flat {live : Nat → Prop} {s : Shape} (unnumbered : s.isUnnumbered = true) : P.shape live s s
  format (keys : List Key) (live : Nat → Prop) (f : String) :
    P.Parallel keys live P.shape (draw (Shape.ofFormat f)) (draw (Shape.ofFormat f))
  literal (keys : List Key) (live : Nat → Prop) {v : Value} (fair : P.constant v) :
    P.Parallel keys live P.shape (draw (Shape.ofLiteral v)) (draw (Shape.ofLiteral v))
  items (keys : List Key) {live : Nat → Prop} {s s' : Shape} (inside : P.shape live s s') :
    P.Parallel keys live P.shape (draw (Shape.ofItems s)) (draw (Shape.ofItems s'))
  properties (keys : List Key) {live : Nat → Prop} {ps ps' : List (JsonShape.Property Shape)}
  {e e' : Option Shape}
    (each : Forall₂ (P.Property live) ps ps') (extra : Option.Rel (P.shape live) e e')
    (named : P.names (ps.map (·.name))) :
    P.Parallel keys live P.shape (draw (Shape.ofProperties ps e)) (draw (Shape.ofProperties ps' e'))
  union (keys : List Key) {live : Nat → Prop} (inclusive : Bool) {ss ss' : List Shape}
  (each : Forall₂ (P.shape live) ss ss') :
    P.Parallel keys live P.shape (draw (Shape.unionOf inclusive ss)) (draw (Shape.unionOf inclusive ss'))
  meet (keys : List Key) {live : Nat → Prop} (meets : P.meets) {a a' b b' : Shape}
  (left : P.shape live a a') (right : P.shape live b b') :
    P.Parallel keys live P.shape (intersect a b) (intersect a' b')
  meetAll (keys : List Key) {live : Nat → Prop} (meets : P.meets) {ss ss' : List Shape}
  (each : Forall₂ (P.shape live) ss ss') :
    P.Parallel keys live P.shape (intersectAll ss) (intersectAll ss')
  malformed (keys : List Key) (live : Nat → Prop) (p : Path) {message : String}
  (complaint : Complaint message) :
    P.Parallel keys live P.Result (malformed P.options p message) (malformed P.options' p message)
  unresolved (keys : List Key) (live : Nat → Prop) (p : Path) (key : String) {t t' : Table}
  (seen : P.table t t') :
    P.Parallel keys live (fun _ _ _ => True) (unresolved P.options p key t)
    (unresolved P.options' p key t')
  lack (required near far filled : Bool) :
  P.flag (mayLack P.options required near far filled) (mayLack P.options' required near far filled)
  demand {b b' : Bool} (more : Bool) (flags : P.flag b b') : P.flag (b && more) (b' && more)
  unnamed : P.names []
  stopped {keys : List Key} {st st' : State} (states : P.state keys st st') : st'.stopped = st.stopped
  same {f f' : Frame} (frames : P.frame f f') : f'.id = f.id ∧ f'.depth = f.depth ∧ f'.key = f.key
  stack {keys : List Key} {st st' : State} (states : P.state keys st st') :
      Forall₂ P.frame st.stack st'.stack
  frames {keys : List Key} {st st' : State} (states : P.state keys st st') : st.stack.map (·.key) = keys
  memo {keys : List Key} {st st' : State} (states : P.state keys st st') :
      Forall₂ (P.Memo (P.live st)) st.memo st'.memo
  handle {keys : List Key} {st st' : State} (states : P.state keys st st') {f f' : Frame}
      (member : f ∈ st.stack) (frames : P.frame f f') :
    P.Ends keys (P.live st) (fun live id id' => P.shape live (.handle id) (.handle id'))
    (handleOf f st) (handleOf f' st')
  enter {keys : List Key} {st st' : State} (states : P.state keys st st') (key : Key) {t t' : Table}
      (title : String) (seen : P.table t t')
    (titled : ∃ place ∈ P.corpus.places, place.2.keywords.title = title) :
    P.state (key :: keys) (st.enter (st.nextFrame key t title)) (st'.enter (st'.nextFrame key t' title)) ∧
      P.frame (st.nextFrame key t title) (st'.nextFrame key t' title) ∧
      P.live st ≤ P.live (st.enter (st.nextFrame key t title))
  close {keys : List Key} {st st' : State} {f f' : Frame} (states : P.state (f.key :: keys) st st')
      (depth : f.depth = keys.length)
    (frames : P.frame f f') {r r' : Derivation.Result} (results : P.Result (P.live st) r r') :
    P.Ends keys (P.live st) P.Result (closeFrame f r st) (closeFrame f' r' st')
  spent {keys : List Key} {n : Nat} (budgets : P.budget keys 0 n) : n = 0 ∧ P.fault .exhausted
  spent' {keys : List Key} {n : Nat} (budgets : P.budget keys n 0) : n = 0
  open_key {keys : List Key} {n n' : Nat} (budgets : P.budget keys (n + 1) (n' + 1)) {t t' : Table}
      {location : Location} {s : Schema}
    (present : P.corpus.get? location = some s) (seen : P.table t t')
    (closed : keyOf s location t ∉ keys) :
    P.budget (keyOf s location t :: keys) n n'

def Recurs (keys : List Key) (recur recur' : Recur) : Prop :=
  ∀ live location? t t' path, (location?.isSome = true → P.table t t') →
    P.Parallel keys live P.Result (recur location? t path) (recur' location? t' path)

abbrev here (location : Location) (t : Table) (path : Path) (depth : Nat) : Site :=
  ⟨P.corpus, P.options, location, t, path, depth⟩

abbrev there (location : Location) (t : Table) (path : Path) (depth : Nat) : Site :=
  ⟨P.corpus, P.options', location, t, path, depth⟩

section Rules

variable {P} {recur recur' : Recur} {location : Location} {t t' : Table} {path : Path} {depth : Nat}
  {k : Keywords Schema}
variable {e e' : Option Shape} {r r' : Derivation.Result} {ps ps' : List (JsonShape.Property Shape)}

theorem Lawful.enterTable (lawful : P.Lawful) (seen : P.table t t') (location : Location) :
    P.table (t.enter P.corpus location) (t'.enter P.corpus location) := by
  unfold Table.enter
  cases present : P.corpus.get? location with
  | none => exact seen
  | some s => exact lawful.enterSchema present seen

theorem Lawful.result_mono (lawful : P.Lawful) : Monotone P.Result :=
  fun _ _ larger _ _ related => ⟨lawful.mono larger _ _ related.shape, related.low⟩

theorem Lawful.property_mono (lawful : P.Lawful) : Monotone P.Property :=
  fun _ _ larger _ _ related =>
    ⟨related.name, lawful.mono larger _ _ related.shape, related.optional, related.default⟩

theorem Lawful.extra_mono (lawful : P.Lawful) (larger : live ≤ live')
    (extra : Option.Rel (P.shape live) e e') :
    Option.Rel (P.shape live') e e' := optionRel_imp (fun _ _ => lawful.mono larger _) extra

theorem Lawful.pure (lawful : P.Lawful) (related : P.Result live r r') :
    P.Parallel keys live P.Result (Pure.pure r) (Pure.pure r') :=
      .pure fun _ larger => lawful.result_mono larger _ _ related

theorem Lawful.pure_flat (lawful : P.Lawful) {s : Shape} (unnumbered : s.isUnnumbered = true) :
    P.Parallel keys live P.Result (Pure.pure (s, none)) (Pure.pure (s, none)) :=
      lawful.pure ⟨lawful.flat unnumbered, rfl⟩

theorem Lawful.result_of_shape (lawful : P.Lawful) {f f' : Derive Shape}
    (shapes : P.Parallel keys live P.shape f f') {low low' : Option Nat} (same : low' = low) :
    P.Parallel keys live P.Result (do return (← f, low)) (do return (← f', low')) :=
  .bind shapes fun _ _ _ _ related => lawful.pure ⟨related, same⟩

theorem foldl_lower {results : List (α × Option Nat)} {results' : List (β × Option Nat)}
    (lows : results'.map (·.2) = results.map (·.2)) (low : Option Nat) :
    results'.foldl (fun low (_, l) => lower low l) low = results.foldl (fun low (_, l) =>
      lower low l) low := by
  have only : ∀ {γ : Type} (list : List (γ × Option Nat)),
      list.foldl (fun low (_, l) => lower low l) low = (list.map (·.2)).foldl lower low := by
    intro γ list
    rw [foldl_map]
  rw [only, only, lows]

theorem foldl_results {results results' : List Derivation.Result}
    (each : Forall₂ (P.Result live) results results') :
    Forall₂ (P.shape live) (results.map (·.1)) (results'.map (·.1)) ∧
      results'.foldl (fun low (_, l) => lower low l) none = results.foldl (fun low (_, l) =>
      lower low l) none := by
  refine ⟨?_, foldl_lower ?_ none⟩
  · rw [forall₂_map_left_iff, forall₂_map_right_iff]
    exact each.imp fun _ _ related => related.shape
  · rw [← forall₂_eq_eq_eq, forall₂_map_left_iff, forall₂_map_right_iff]
    exact (each.imp fun _ _ related => related.low).flip

theorem each_parallel (lawful : P.Lawful) (recurs : P.Recurs keys recur recur')
    (seen : P.table t t') (step : Nat → Step) (p : Path) (list : List (Option Schema)) :
    P.Parallel keys live (fun live r r' => Forall₂ (P.shape live) r.1 r'.1 ∧ r'.2 = r.2)
      (each recur (P.here location t path depth) step p list)
      (each recur' (P.there location t' path depth) step p list) :=
  .bind (.mapM lawful.result_mono fun _ _ live => recurs live _ _ _ _ fun _ => seen) fun _ _ _ _ each =>
    .pure fun _ larger => foldl_results (each.imp (lawful.result_mono larger))

theorem constant_parallel (lawful : P.Lawful) {v : Value} (fair : P.constant v) :
    P.Parallel keys live P.shape (Derivation.constant v) (Derivation.constant v) := by
  cases v with
  | null => exact .pure fun _ _ => lawful.flat rfl
  | _ => exact lawful.literal keys live fair

theorem array_parallel (lawful : P.Lawful) (recurs : P.Recurs keys recur recur')
    (seen : P.table t t') :
    P.Parallel keys live P.Result (array recur (P.here location t path depth) k)
      (array recur' (P.there location t' path depth) k) := by
  have item : ∀ live location? (u u' : Table) (p : Path), P.table u u' → P.Parallel keys live P.Result
      (do
        let (shape, low) ← recur location? u p
        return (← draw (ofItems shape), low))
      (do
        let (shape, low) ← recur' location? u' p
        return (← draw (ofItems shape), low)) :=
    fun live location? u u' p seen =>
      .bind (recurs live location? u u' p fun _ => seen) fun r r' _ _ related =>
      lawful.result_of_shape (lawful.items keys related.shape) related.low
  unfold array
  cases k.items? with
  | none => exact lawful.result_of_shape (lawful.items keys (lawful.flat rfl)) rfl
  | some items =>
    dsimp only
    cases (if isBareOneOf items.keywords then items.keywords.oneOf? else none) with
    | none => exact item _ _ _ _ _ seen
    | some alternatives =>
      refine .bind (.mapM lawful.result_mono fun i _ live =>
        item live _ _ _ _ (lawful.enterTable seen _)) fun results results' _ _ each => ?_
      obtain ⟨shapes, lows⟩ := foldl_results each
      exact lawful.result_of_shape (lawful.union keys false shapes) lows

theorem extra_parallel (lawful : P.Lawful) (recurs : P.Recurs keys recur recur')
    (seen : P.table t t') :
    P.Parallel keys live (fun live r r' => Option.Rel (P.shape live) r.1 r'.1 ∧ r'.2 = r.2)
      (extra recur (P.here location t path depth) k)
      (extra recur' (P.there location t' path depth) k) := by
  unfold extra
  cases k.additionalProperties? with
  | none => exact .pure fun _ _ => ⟨.none, rfl⟩
  | some s =>
    dsimp only
    cases s.keywords.boolean? with
    | some b =>
      cases b with
      | true => exact .pure fun _ _ => ⟨.some (lawful.flat rfl), rfl⟩
      | false => exact .pure fun _ _ => ⟨.none, rfl⟩
    | none =>
      exact .bind (recurs _ _ _ _ _ fun _ => seen) fun r r' _ _ related =>
        .pure fun _ larger => ⟨.some (lawful.mono larger _ _ related.shape), related.low⟩

theorem property_parallel (lawful : P.Lawful) (recurs : P.Recurs keys recur recur')
    (seen : P.table t t') (name : String) (s? : Option Schema) :
    P.Parallel keys live (fun live r r' => (P.Property live r.1 r'.1 ∧ r.1.name = name) ∧
      r'.2 = r.2) (property recur (P.here location t path depth) k name s?)
      (property recur' (P.there location t' path depth) k name s?) := by
  have leads : ∀ place (k : Keywords Schema), leadsToContainer (P.there location t' path depth) place k =
      leadsToContainer (P.here location t path depth) place k := by
    intro place k
    unfold leadsToContainer
    rw [lawful.aliasEnd seen]
  unfold property
  refine .bind (recurs _ _ _ _ _ fun _ => seen) fun r r' _ _ related => ?_
  obtain ⟨shape, low⟩ := r
  obtain ⟨shape', low'⟩ := r'
  obtain ⟨shapes, rfl⟩ := related
  simp only [leads]
  exact .pure fun _ larger => ⟨⟨⟨rfl, lawful.mono larger _ _ shapes, lawful.lack _ _ _ _, rfl⟩, rfl⟩, rfl⟩

theorem choose_parallel (lawful : P.Lawful) (recurs : P.Recurs keys recur recur')
    (seen : P.table t t') (one : k.oneOf? = none ∨ P.meets) (related : P.Result live r r') :
    P.Parallel keys live P.Result (match k.oneOf? with
        | none => pure r
        | some list => do
          let (parts, l) ← each recur (P.here location t path depth) .oneOf (path.field "oneOf") list
          return (← intersect r.1 (← draw (unionOf false parts)), lower r.2 l)) (match k.oneOf? with
        | none => pure r'
        | some list => do
          let (parts, l) ← each recur' (P.there location t' path depth) .oneOf (path.field "oneOf") list
          return (← intersect r'.1 (← draw (unionOf false parts)), lower r'.2 l)) := by
  cases alternatives : k.oneOf? with
  | none => exact lawful.pure related
  | some list =>
    have meets : P.meets := one.resolve_left (by simp [alternatives])
    refine .bind (each_parallel lawful recurs seen _ _ _) fun parts parts' _ larger shapes => ?_
    refine .bind (lawful.union keys false shapes.1) fun either either' _ larger' united => ?_
    exact lawful.result_of_shape
      (lawful.meet keys meets (lawful.mono (larger.trans larger') _ _ related.shape) united)
      (by rw [shapes.2, related.low])

theorem combine_parallel (lawful : P.Lawful) (recurs : P.Recurs keys recur recur')
    (seen : P.table t t') (all : k.allOf? = none ∨ P.meets) (one : k.oneOf? = none ∨ P.meets)
    (related : P.Result live r r') :
    P.Parallel keys live P.Result (combine recur (P.here location t path depth) k r)
      (combine recur' (P.there location t' path depth) k r') := by
  obtain ⟨shape, low⟩ := r
  obtain ⟨shape', low'⟩ := r'
  unfold combine
  dsimp only
  cases conjunction : k.allOf? with
  | none => exact choose_parallel lawful recurs seen one related
  | some list =>
    have meets : P.meets := all.resolve_left (by simp [conjunction])
    refine .bind (each_parallel lawful recurs seen _ _ _) fun parts parts' _ larger shapes => ?_
    refine .bind (lawful.meetAll keys meets shapes.1) fun joint joint' _ larger' met => ?_
    refine .bind (lawful.meet keys meets (lawful.mono (larger.trans larger') _ _ related.shape) met)
      fun s s' _ _ met' => ?_
    exact choose_parallel lawful recurs seen one ⟨met', by rw [shapes.2, show low' = low from related.low]⟩

theorem withRequired_parallel (lawful : P.Lawful) {base base' : Shape}
    (same : P.shape live base base') (each : Forall₂ (P.Property live) ps ps')
    (extra : Option.Rel (P.shape live) e e') (named : P.names (ps.map (·.name)))
    (names : List String) :
    P.Parallel keys live P.shape (withRequired base ps e names)
      (withRequired base' ps' e' names) := by
  unfold withRequired
  split_ifs
  · exact .pure fun _ larger => lawful.mono larger _ _ same
  · refine lawful.properties keys ?_ extra ?_
    · rw [forall₂_map_left_iff, forall₂_map_right_iff]
      refine each.imp fun p p' related => ⟨related.name, related.shape, ?_, related.default⟩
      rw [related.name]
      exact lawful.demand _ related.optional
    · rw [map_map]
      exact named

theorem property?_parallel (each : Forall₂ (P.Property live) ps ps') (name : String) :
    (property? ps' name).isNone = (property? ps name).isNone :=
  property?_isNone_of_names (each.imp fun _ _ related => related.name).flip name

theorem variants_parallel (lawful : P.Lawful) {base base' : Shape} (same : P.shape live base base')
    (each : Forall₂ (P.Property live) ps ps') (extra : Option.Rel (P.shape live) e e')
    (named : P.names (ps.map (·.name))) (branches : List (Option Schema × Nat)) :
    P.Parallel keys live (fun live r r' =>
      (∃ shapes shapes', r = .ok shapes ∧ r' = .ok shapes' ∧ Forall₂ (P.shape live) shapes shapes')
      ∨ ∃ odd, r = .error odd ∧ r' = .error odd) (variants base ps e branches)
      (variants base' ps' e' branches) := by
  induction branches generalizing live with
  | nil => exact .pure fun _ _ => .inl ⟨[], [], rfl, rfl, .nil⟩
  | cons branch rest ih =>
    obtain ⟨s?, i⟩ := branch
    rw [variants, variants]
    simp only [property?_parallel each]
    cases ((s?.bind (·.keywords.required?)).getD []).find? fun name => (property? ps name).isNone with
    | some name => exact .pure fun _ _ => .inr ⟨(i, name), rfl, rfl⟩
    | none =>
      refine .bind (withRequired_parallel lawful same each extra named _)
        fun variant variant' live₁ larger here => ?_
      refine .bind (ih (lawful.mono larger _ _ same) (each.imp (lawful.property_mono larger))
        (lawful.extra_mono larger extra))
        fun more more' live₂ larger' later => ?_
      rcases later with ⟨shapes, shapes', rfl, rfl, others⟩ | ⟨odd, rfl, rfl⟩
      · exact .pure fun _ larger'' =>
          .inl ⟨_, _, rfl, rfl, .cons (lawful.mono (larger'.trans larger'') _ _ here)
          (others.imp (lawful.mono larger''))⟩
      · exact .pure fun _ _ => .inr ⟨odd, rfl, rfl⟩

theorem properties_parallel (lawful : P.Lawful) (recurs : P.Recurs keys recur recur')
    (seen : P.table t t') (entries : List (String × Option Schema)) :
    P.Parallel keys live (fun live results results' => Forall₂ (P.Property live) (results.map (·.1))
      (results'.map (·.1)) ∧ (results.map (·.1)).map (·.name) = entries.map (·.1) ∧
      results'.map (·.2) = results.map (·.2))
      (entries.mapM fun (name, s?) => property recur (P.here location t path depth) k name s?)
      (entries.mapM fun (name, s?) =>
      property recur' (P.there location t' path depth) k name s?) := by
  induction entries generalizing live with
  | nil => exact .pure fun _ _ => ⟨.nil, rfl, rfl⟩
  | cons entry rest ih =>
    obtain ⟨name, s?⟩ := entry
    rw [mapM_cons, mapM_cons]
    refine .bind (property_parallel lawful recurs seen name s?) fun r r' _ _ ⟨⟨related, own⟩, low⟩ => ?_
    refine .bind ih fun rs rs' _ larger ⟨others, names, lows⟩ => .pure fun _ larger' =>
      ⟨.cons ?_ ?_, ?_, ?_⟩
    · exact lawful.property_mono (larger.trans larger') _ _ related
    · exact others.imp (lawful.property_mono larger')
    · rw [map_cons, map_cons, map_cons, own, names]
    · rw [map_cons, map_cons, low, lows]

theorem object_parallel (lawful : P.Lawful) (recurs : P.Recurs keys recur recur')
    (seen : P.table t t') (admits : P.Admits k) (typed : k.type.has "object" = true) :
    P.Parallel keys live P.Result (object recur (P.here location t path depth) k)
      (object recur' (P.there location t' path depth) k) := by
  have one := admits.oneOf typed
  unfold object
  refine .bind (extra_parallel lawful recurs seen) fun x x' _ _ ⟨extra, low⟩ => ?_
  obtain ⟨extra?, low₁⟩ := x
  obtain ⟨extra?', low₁'⟩ := x'
  obtain rfl : low₁' = low₁ := low
  cases properties : k.properties? with
  | none =>
    dsimp only
    split_ifs
    · exact lawful.malformed keys _ _ .unlisted
    · exact .bind (lawful.properties keys .nil extra lawful.unnamed) fun base base' _ _ same =>
        combine_parallel lawful recurs seen admits.allOf one ⟨same, rfl⟩
  | some entries =>
    dsimp only
    refine .bind (properties_parallel lawful recurs seen entries)
      fun results results' _ larger ⟨each, names, lows⟩ => ?_
    have named : P.names ((results.map (·.1)).map (·.name)) := names ▸ admits.names entries properties
    have extra := lawful.extra_mono larger extra
    rw [foldl_lower lows]
    refine .bind (lawful.properties keys each extra named) fun base base' _ larger' same => ?_
    cases k.anyOf? with
    | none => exact combine_parallel lawful recurs seen admits.allOf one ⟨same, rfl⟩
    | some branches =>
      refine .bind (variants_parallel lawful same (each.imp (lawful.property_mono larger'))
        (lawful.extra_mono larger' extra) named _)
        fun r r' _ _ ends => ?_
      rcases ends with ⟨shapes, shapes', rfl, rfl, related⟩ | ⟨odd, rfl, rfl⟩
      · exact .bind (lawful.union keys true related) fun s s' _ _ united =>
          combine_parallel lawful recurs seen admits.allOf one ⟨united, rfl⟩
      · exact lawful.malformed keys _ _ (.undeclared _)

theorem typed_parallel (lawful : P.Lawful) (recurs : P.Recurs keys recur recur')
    (seen : P.table t t') (admits : P.Admits k) {name : String} (listed : name ∈ k.type.names) :
    P.Parallel keys live P.Result (typed recur (P.here location t path depth) k name)
      (typed recur' (P.there location t' path depth) k name) := by
  unfold typed
  split
  · split_ifs
    · exact lawful.result_of_shape (lawful.format keys live _) rfl
    · exact lawful.pure_flat rfl
    · exact lawful.pure_flat rfl
  · exact lawful.pure_flat rfl
  · exact lawful.pure_flat rfl
  · exact lawful.pure_flat rfl
  · exact lawful.pure_flat rfl
  · exact object_parallel lawful recurs seen admits (elem_eq_true_of_mem listed)
  · exact array_parallel lawful recurs seen
  · exact lawful.pure_flat rfl

theorem dispatch_parallel (lawful : P.Lawful) (recurs : P.Recurs keys recur recur')
    (seen : P.table t t') (admits : P.Admits k) :
    P.Parallel keys live P.Result (dispatch recur (P.here location t path depth) k)
      (dispatch recur' (P.there location t' path depth) k) := by
  unfold dispatch
  cases k.boolean? with
  | some b => cases b <;> exact lawful.pure_flat rfl
  | none =>
    dsimp only
    split_ifs
    · have ends := lawful.resolve seen k.ref
      revert ends
      generalize t.resolve P.corpus k.ref = found, t'.resolve P.corpus k.ref = found'
      rintro (@⟨⟨node?, u⟩, ⟨_, u'⟩, same, later⟩ | _)
      · obtain rfl : _ = node? := same
        exact recurs _ _ _ _ _ later
      · exact .bind (lawful.unresolved keys _ _ _ seen) fun _ _ _ _ _ => lawful.pure_flat rfl
    · cases constant : k.const? with
      | some v => exact lawful.result_of_shape (constant_parallel lawful (admits.const v constant)) rfl
      | none =>
        cases listed : k.enum? with
        | some values =>
          refine .bind (.mapM lawful.mono fun v member _ =>
            constant_parallel lawful (admits.enum values listed v member))
            fun shapes shapes' _ _ each => ?_
          exact lawful.result_of_shape (lawful.union keys false each) rfl
        | none =>
          cases types : k.type with
          | one name =>
            exact typed_parallel lawful recurs seen admits (by rw [types]; exact mem_singleton_self name)
          | list names =>
            refine .bind (.mapM lawful.result_mono fun name member _ =>
              typed_parallel lawful recurs seen admits (by rw [types]; exact member))
              fun rs rs' _ _ each => ?_
            obtain ⟨shapes, lows⟩ := foldl_results each
            exact lawful.result_of_shape (lawful.union keys false shapes) lows
          | absent =>
            cases k.anyOf? with
            | some list =>
              exact .bind (each_parallel lawful recurs seen _ _ list) fun r r' _ _ ⟨shapes, lows⟩ =>
                lawful.result_of_shape (lawful.union keys true shapes) lows
            | none =>
              cases conjunction : k.allOf? with
              | some list =>
                have meets : P.meets := admits.allOf.resolve_left (by rw [conjunction]; nofun)
                exact .bind (each_parallel lawful recurs seen _ _ list) fun r r' _ _ ⟨shapes, lows⟩ =>
                  lawful.result_of_shape (lawful.meetAll keys meets shapes) lows
              | none =>
                cases k.oneOf? with
                | some list =>
                  exact .bind (each_parallel lawful recurs seen _ _ list) fun r r' _ _ ⟨shapes, lows⟩ =>
                    lawful.result_of_shape (lawful.union keys false shapes) lows
                | none => exact lawful.pure_flat rfl

end Rules

section Derivations

variable {P} {st st' : State} {location : Location} {s : Schema} {t t' : Table}

theorem inFrame_ends {recur recur' : Recur} (lawful : P.Lawful) (states : P.state keys st st')
    (present : P.corpus.get? location = some s) (seen : P.table t t') (path : Path)
    (recurs : P.Recurs (keyOf s location t :: keys) recur recur') :
    P.Ends keys (P.live st) P.Result (inFrame recur P.corpus P.options location s t path st)
      (inFrame recur' P.corpus P.options' location s t' path st') := by
  have length : st.stack.length = keys.length := by rw [← lawful.frames states, length_map]
  have inside : P.Parallel (keyOf s location t :: keys) (P.live st) P.Result
      (dispatch recur (P.here location (t.enterSchema s.keywords location t.scope) path
      st.stack.length) s.keywords)
      (dispatch recur' (P.there location (t'.enterSchema s.keywords location t'.scope) path
      st.stack.length) s.keywords) :=
    dispatch_parallel lawful recurs (lawful.enterSchema present seen) (lawful.admits present)
  obtain ⟨entered, frames, grows⟩ :=
    lawful.enter states (keyOf s location t) s.keywords.title (lawful.enterSchema present seen)
    ⟨_, Corpus.mem_places present, rfl⟩
  rw [inFrame_eq, inFrame_eq, lawful.key seen, ← (lawful.stack states).length_eq]
  have ends := inside _ _ entered grows
  revert ends
  generalize dispatch recur _ s.keywords _ = result, dispatch recur' _ s.keywords _ = result'
  rintro (@⟨r, r', st₁, st₁', states₁, grows₁, results⟩ | reason)
  · exact (lawful.close (f := st.nextFrame (keyOf s location t) _ _) states₁ length frames
      results).weaken grows₁
  · exact .fault reason

theorem known_ends (lawful : P.Lawful) (states : P.state keys st st') {m m' : Derivation.Memo}
    (related : P.Memo (P.live st) m m') :
    P.Ends keys (P.live st) P.Result
      (.ok ((m.shape, m.frame?.bind fun id => (st.stack.find? (·.id == id)).map (·.depth)), st))
      (.ok ((m'.shape, m'.frame?.bind fun id => (st'.stack.find? (·.id == id)).map (·.depth)),
      st')) := by
  have depths : ∀ id, (st'.stack.find? (·.id == id)).map (·.depth) =
      (st.stack.find? (·.id == id)).map (·.depth) := by
    intro id
    have found := find?_related (lawful.stack states) fun f f' frames =>
        show (f'.id == id) = (f.id == id) by rw [(lawful.same frames).1]
    revert found
    generalize st.stack.find? (·.id == id) = first, st'.stack.find? (·.id == id) = second
    rintro (frames | _)
    · exact congrArg some (lawful.same frames).2.1
    · rfl
  rw [related.frame, funext depths]
  exact .ok states le_rfl ⟨related.shape, rfl⟩

theorem derive_recurs (lawful : P.Lawful) {n n' : Nat} (budgets : P.budget keys n n') :
    P.Recurs keys (deriveBy P.recalls P.corpus P.options n)
      (deriveBy P.recalls P.corpus P.options' n') := by
  induction n generalizing n' keys with
  | zero =>
    obtain ⟨rfl, reason⟩ := lawful.spent budgets
    exact fun _ _ _ _ _ _ _ _ _ _ => .fault reason
  | succ n ih =>
    cases n' with
    | zero => exact absurd (lawful.spent' budgets) (Nat.succ_ne_zero n)
    | succ n' =>
      intro live location? t t' path paired st st' states below
      refine Ends.weaken ?_ below
      have nothing : P.Ends keys (P.live st) P.Result (.ok ((.any, none), st)) (.ok ((.any, none), st')) :=
        .ok states le_rfl ⟨lawful.flat rfl, rfl⟩
      have stops := lawful.stopped states
      cases stopped : st.stopped with
      | true =>
        rw [deriveBy_stopped stopped, deriveBy_stopped (stops.trans stopped)]
        exact nothing
      | false =>
        have going' : st'.stopped = false := stops.trans stopped
        cases found : location?.bind P.corpus.get? with
        | none =>
          rw [deriveBy_absent found, deriveBy_absent found]
          exact nothing
        | some s =>
          obtain ⟨location, rfl, present⟩ := Option.bind_eq_some_iff.mp found
          have seen := paired rfl
          have key_eq := lawful.key seen location s
          have frames := find?_related (lawful.stack states) fun f f' frames =>
            show (f'.key == keyOf s location t) =
              (f.key == keyOf s location t) by rw [(lawful.same frames).2.2]
          revert frames
          generalize reached : st.stack.find? (·.key == keyOf s location t) = first,
            reached' : st'.stack.find? (·.key == keyOf s location t) = second
          rintro (@⟨f, f', frames⟩ | _)
          · rw [deriveBy_open stopped present reached, deriveBy_open going' present (key_eq ▸ reached')]
            have handles := lawful.handle states (mem_of_find?_eq_some reached) frames
            change P.Ends keys (P.live st) P.Result (handleOf f st >>= fun (id, s) =>
              Except.ok ((handle id, some f.depth), s))
              (handleOf f' st' >>= fun (id, s) => Except.ok ((handle id, some f'.depth), s))
            rw [(lawful.same frames).2.1]
            revert handles
            generalize handleOf f st = result, handleOf f' st' = result'
            rintro (@⟨id, id', st₁, st₁', states₁, grows, related⟩ | reason)
            · exact .ok states₁ grows ⟨related, rfl⟩
            · exact .fault reason
          · have closed : keyOf s location t ∉ keys :=
              lawful.frames states ▸ not_mem_map_of_find?_eq_none reached
            have inside := inFrame_ends lawful states present seen path
                (ih (lawful.open_key budgets present seen closed))
            have memos := find?_related (lawful.memo states) fun m m' related =>
              show (m'.key == keyOf s location t) = (m.key == keyOf s location t) by rw [related.key]
            revert memos
            generalize known : st.memo.find? (·.key == keyOf s location t) = first, known' :
              st'.memo.find? (·.key == keyOf s location t) = second
            rintro (related | _)
            · cases recalls : P.recalls with
              | true =>
                rw [deriveBy_known stopped present reached known,
                  deriveBy_known going' present (key_eq ▸ reached') (key_eq ▸ known')]
                exact known_ends lawful states related
              | false =>
                rw [recalls] at inside
                rw [deriveBy_new stopped present reached (absurd · Bool.false_ne_true),
                  deriveBy_new going' present (key_eq ▸ reached') (absurd · Bool.false_ne_true)]
                exact inside
            · rw [deriveBy_new stopped present reached fun _ =>
                known, deriveBy_new going' present (key_eq ▸ reached') fun _ => key_eq ▸ known']
              exact inside

end Derivations

end Pairing

end Derivation

end JsonShape
