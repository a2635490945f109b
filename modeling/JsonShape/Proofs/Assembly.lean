import JsonShape.Proofs.Arrangement

/-! Shapes that are made one after another in a growing graph. They are arranged, and no
intersection is put into another one unless a projection does it. -/
namespace JsonShape

open Shape List Graph

theorem Fresh.Follows.ensures {α β : Type} {d : Shift} {strict : Prop} {move : α → β}
    {good : α → Prop} {f : Fresh α} {f' : Fresh β} (follows : Follows d strict move good f f') :
    f.Ensures good := by
  intro n a n' run
  have pairs := follows n
  rw [run] at pairs
  generalize f' (n + d.serials) = other at pairs
  cases pairs with
  | ok holds => exact holds

namespace Graph

variable {flat : Prop} {g g' : Graph} {s t r : Shape} {shapes : List Shape}

structure Composed (flat : Prop) (g : Graph) (s : Shape) : Prop where
  grounded : g.Grounded s
  arranged : g.Arranged flat s

theorem Extends.reaches (grows : g.Extends g')
    (inside : ∀ id, g.Reaches s (.handle id) → id < g.handles.size) (reached : g'.Reaches s t) :
    g.Reaches s t := by
  induction reached with
  | self => exact .self
  | piece _ member ih => exact ih.piece member
  | target _ found ih => exact ih.target ((grows.old _ (inside _ ih)).symm.trans found)

theorem Composed.extend (composed : g.Composed flat s) (grows : g.Extends g') : g'.Composed flat s := by
  have back : ∀ t, g'.Reaches s t → g.Reaches s t := fun t => grows.reaches composed.grounded.handles
  refine ⟨⟨fun n w reached => ?_, fun id reached => ?_⟩, fun t reached => ?_⟩
  · exact composed.grounded.documents n w (back _ reached)
  · exact (composed.grounded.handles id (back _ reached)).trans_le grows.size
  · exact composed.arranged t (back t reached)

theorem Composed.reached (composed : g.Composed flat s) (reached : g.Reaches s t) : g.Composed flat t where
  grounded := ⟨fun n w deeper => composed.grounded.documents n w (reached.trans deeper),
    fun id deeper => composed.grounded.handles id (reached.trans deeper)⟩
  arranged := composed.arranged.reached reached

section MadeOf

def ReachedBy (g : Graph) (shapes : List Shape) (id : Nat) : Prop := ∃ s ∈ shapes, g.Reaches s (.handle id)

structure MadeOf (flat : Prop) (g : Graph) (shapes : List Shape) (r : Shape) : Prop where
  trim : r.Trim flat
  leaves : r.Leaves True (g.ReachedBy shapes)

variable (each : ∀ s ∈ shapes, g.Composed flat s)
include each

theorem madeOf_mem (member : s ∈ shapes) : MadeOf flat g shapes s where
  trim := (each s member).arranged.trim
  leaves := (leaves_of_reaches (fun _ => (each s member).grounded.documents) .self).mono
      fun _ inside => ⟨s, member, inside⟩

theorem leaves_of_reachedBy (id : Nat) (live : g.ReachedBy shapes id) (t : Shape)
    (found : g.target? id = some t) : t.Leaves True (g.ReachedBy shapes) := by
  obtain ⟨s, member, reached⟩ := live
  exact (leaves_of_reaches (fun _ => (each s member).grounded.documents)
    (reached.target found)).mono fun _ inside => ⟨s, member, inside⟩

theorem MadeOf.composed (madeOf : MadeOf flat g shapes r) : g.Composed flat r := by
  obtain ⟨trim, leaves⟩ := madeOf
  have origin : ∀ t, g.Reaches r t → t ∈ r.subshapes ∨ ∃ s ∈ shapes, g.Reaches s t := by
    intro t reached
    induction reached with
    | self => exact .inl r.mem_subshapes_self
    | piece _ member ih =>
      rcases ih with inside | ⟨s, listed, reached⟩
      · exact .inl (mem_subshapes_of_mem_pieces inside member)
      · exact .inr ⟨s, listed, reached.piece member⟩
    | target _ found ih =>
      obtain ⟨s, listed, reached⟩ : g.ReachedBy shapes _ :=
        ih.elim (leaves.handles _) fun reached => reached
      exact .inr ⟨s, listed, reached.target found⟩
  refine ⟨⟨fun n w reached => ?_, fun id reached => ?_⟩, fun t reached => ?_⟩
  · rcases origin _ reached with inside | ⟨s, listed, reached⟩
    · exact leaves.literals n w inside trivial
    · exact (each s listed).grounded.documents n w reached
  · obtain ⟨s, listed, reached⟩ : g.ReachedBy shapes id :=
      (origin _ reached).elim (leaves.handles id) fun reached => reached
    exact (each s listed).grounded.handles id reached
  · rcases origin t reached with inside | ⟨s, listed, reached⟩
    · exact trim t inside
    · exact (each s listed).arranged t reached

theorem unionOf_madeOf (inclusive : Bool) : (unionOf inclusive shapes).Ensures (MadeOf flat g shapes) := by
  intro n r n' run
  have trim : r.Trim flat :=
    unionOf_trim inclusive (fun s member => (madeOf_mem each member).trim) n r n' run
  have follows := unionOf_follows (d := ⟨0, 0⟩) inclusive fun s member => (madeOf_mem each member).leaves
  exact ⟨trim, follows.ensures n r n' run⟩

theorem intersect_madeOf (left : MadeOf flat g shapes s) (right : MadeOf flat g shapes t) :
    (intersect g s t).Ensures (MadeOf flat g shapes) := by
  intro n r n' run
  have trim : r.Trim flat :=
    intersect_trim (left.composed each).arranged (right.composed each).arranged n r n' run
  have follows := intersect_follows (targetsFollow_self g)
      (leaves_of_reachedBy each) left.leaves right.leaves
  exact ⟨trim, Fresh.Follows.ensures follows n r n' run⟩

theorem intersectAll_madeOf : (intersectAll g shapes).Ensures (MadeOf flat g shapes) := by
  have fold : ∀ rest : List Shape, rest ⊆ shapes → ∀ start, MadeOf flat g shapes start →
      (rest.foldlM (intersect g) start).Ensures (MadeOf flat g shapes) := by
    intro rest listed
    induction rest with
    | nil => exact fun start made => .pure made
    | cons s rest ih =>
      intro start made n r n' run
      rw [foldlM_cons] at run
      obtain ⟨m, k, met, run⟩ := Derivation.bind_run run
      obtain ⟨here, later⟩ := cons_subset.mp listed
      exact ih later m (intersect_madeOf each made (madeOf_mem each here) n m k met) k r n' run
  exact fold shapes (fun _ => id) any ⟨trim_flat rfl, leaves_flat rfl nofun nofun⟩

theorem draw_composed {f : Fresh Shape} (ensures : f.Ensures (MadeOf flat g shapes))
    (ran : draw f g = .ok (r, g')) : g.Extends g' ∧ g'.Composed flat r := by
  obtain ⟨⟨_, n⟩, run, same⟩ := bind_eq_ok_iff.mp ran
  obtain ⟨rfl, rfl⟩ := Prod.mk.inj (Except.ok.inj same)
  have grows : g.Extends { g with next := n } := ⟨Nat.le_refl _, fun _ _ => rfl⟩
  exact ⟨grows, ((ensures _ _ _ run).composed each).extend grows⟩

end MadeOf

variable {leaf : Shape → Shape} {drawn : Shape → Fresh Shape}

theorem mapLeaves_composed (draws : Draws drawn leaf) (loosens : Loosens leaf)
    (trim : ∀ s : Shape, s.isLeaf = true → (leaf s).Trim flat) (composed : g.Composed flat s)
    (stays : flat → ∀ t, g.Reaches s t → StaysFlat leaf t)
    (ran : mapLeaves drawn s g = .ok (t, g')) : g.Extends g' ∧ g'.Composed flat t := by
  obtain ⟨_, _, back, run, grows, grounded, renumbers⟩ := mapLeaves_renumbers draws composed.grounded
  obtain ⟨rfl, rfl⟩ := Prod.mk.inj (Except.ok.inj (ran.symm.trans run))
  have projects : ∀ {q}, g.Reaches s q → (q.projected leaf).Trim flat := fun reached =>
    projected_trim trim (composed.arranged.reached reached).trim fun holds p inside =>
      stays holds p (reached.trans (.of_mem_subshapes inside))
  have inner : ∀ {r}, (g.projected leaf).Reaches (s.projected leaf) r → r.Trim flat := by
    intro r reached
    induction reached with
    | self => exact projects .self
    | piece _ member ih => exact ih.piece member
    | target reached found =>
      rw [target?_projected] at found
      obtain ⟨q, bound, rfl⟩ := Option.map_eq_some_iff.mp found
      exact projects ((reaches_of_projected loosens composed.grounded reached).target bound)
  refine ⟨grows, grounded, fun r reached => ?_⟩
  have leaves := leaves_of_reaches (fun _ : True => grounded.documents) reached
  exact ((trim_rename (invariant_rename renumbers.apart) (fun _ leaves _ => leaves.piece) leaves).mp
    (inner (renumbers.reaches reached))).own

end Graph

namespace Derivation

variable {corpus : Corpus} {node : Location} {t : Table} {options : Options} {g g' : Graph}
  {o : Outcome} {s : Shape}

theorem run_trim {flat : Prop} (readable : corpus.Readable)
    (bound : ∀ id s, g.target? id = some s → s.Trim flat)
    (ran : run corpus node t options g = .ok (o, g')) :
    (∀ s, o.result = .ok s → s.Trim flat) ∧ ∀ id s, g'.target? id = some s → s.Trim flat := by
  obtain ⟨⟨r, st⟩, derived, same⟩ := bind_eq_ok_iff.mp ran
  obtain ⟨rfl, rfl⟩ := Prod.mk.inj (Except.ok.inj same)
  generalize t.push (.resource (((corpus.get? node).map (·.keywords.id)).getD "") node) = table at derived
  have admits : ∀ location s, corpus.get? location = some s →
      (solo corpus options (table.stock corpus) (Trim flat) Nodup fun _ => True).Admits s.keywords := by
    intro location s present
    refine ⟨fun entries listed => ?_, fun _ _ => trivial, fun _ _ _ _ =>
      trivial, .inr trivial, fun _ => .inr trivial⟩
    have ascending := (readable.keywords present).properties
    rw [listed] at ascending
    exact (pairwise_map.mpr ascending).imp fun less => ne_of_lt less
  have intact : Intact (Trim flat) [] { graph := g } := ⟨rfl, nofun, bound⟩
  have enough := waiting_lt_deriveBudget corpus table []
  have ends := solo_derive (trim_builds flat) (Table.stocked_stock corpus table) admits
      (Table.drawn_stock corpus table) intact enough enough
    (some node) .root
  rw [show derive corpus options (deriveBudget corpus table) (some node) table .root { graph := g }
    = .ok (r, st) from derived] at ends
  cases ends with
  | ok states _ results =>
    refine ⟨fun s result => ?_, states.2.bound⟩
    dsimp only at result
    split_ifs at result
    exact Except.ok.inj result ▸ results.shape.2

theorem run_composed {flat : Prop} (readable : corpus.Readable)
    (ran : run corpus node t options g = .ok (o, g')) :
    g.Extends g' ∧ ∀ s, o.result = .ok s → g'.Composed flat s := by
  cases present : corpus.get? node with
  | none =>
    obtain ⟨rfl, rfl⟩ := Prod.mk.inj (Except.ok.inj ((run_absent present).symm.trans ran))
    refine ⟨(Enlarges.refl _).toExtends, fun s result => ?_⟩
    have none : ∀ s ∈ [], g.Composed flat s := nofun
    exact Except.ok.inj result ▸ MadeOf.composed none ⟨trim_flat rfl, leaves_flat rfl nofun nofun⟩
  | some root =>
    have documents : corpus.DocumentConstants :=
      fun _ _ found => (readable.keywords found).toDocumentConstants
    have along : RunsAlong True g (run corpus node t options {}) (run corpus node t options g) :=
      run_along present (.refl _) (fun _ => documents) g
    rw [ran] at along
    cases first : run corpus node t options {} with
    | error e =>
      rw [first] at along
      cases along
    | ok start =>
      rw [first] at along
      cases along with
      | @ok o₀ _ base _ copied grows =>
        refine ⟨grows, fun s result => ⟨run_grounded present documents ran result, fun r reached => ?_⟩⟩
        obtain ⟨s₀, r₀, result₀, reached₀, rfl⟩ := copied.exists_reached result reached
        have empty : ∀ id s, ({} : Graph).target? id = some s → s.Trim flat := fun id s found =>
          nomatch (({} : Graph).target?_eq_none (Nat.zero_le id)).symm.trans found
        obtain ⟨own, targets⟩ := run_trim readable empty first
        have arranged : base.Arranged flat s₀ := arranged_of_trim (own s₀ result₀) targets
        exact ((trim_shift _).mpr (arranged.reached reached₀).trim).own

end Derivation

/-- Shapes made in a growing graph. Where care is taken, no projection turns a member of an
intersection into an intersection. -/
inductive Made (careful : Prop) : Graph → List Shape → Prop
  | start (g : Graph) : Made careful g []
  | derive {g g' : Graph} {pool : List Shape} {corpus : Corpus} {node : Location} {t : Table}
      {options : Options} {o : Derivation.Outcome} {s : Shape}
      (made : Made careful g pool) (readable : corpus.Readable) (built : t.Built corpus)
      (ran : Derivation.run corpus node t options g = .ok (o, g')) (result : o.result = .ok s) :
      Made careful g' (s :: pool)
  | part {g : Graph} {pool : List Shape} {s t : Shape} (made : Made careful g pool)
      (member : s ∈ pool) (reached : g.Reaches s t) :
      Made careful g (t :: pool)
  | unionOf {g g' : Graph} {pool shapes : List Shape} {s : Shape} (made : Made careful g pool)
      (inclusive : Bool) (members : shapes ⊆ pool)
      (ran : draw (Shape.unionOf inclusive shapes) g = .ok (s, g')) : Made careful g' (s :: pool)
  | intersect {g g' : Graph} {pool : List Shape} {a b s : Shape} (made : Made careful g pool)
      (left : a ∈ pool) (right : b ∈ pool)
      (ran : draw (Shape.intersect g a b) g = .ok (s, g')) : Made careful g' (s :: pool)
  | intersectAll {g g' : Graph} {pool shapes : List Shape} {s : Shape} (made : Made careful g pool)
      (members : shapes ⊆ pool)
      (ran : draw (Shape.intersectAll g shapes) g = .ok (s, g')) : Made careful g' (s :: pool)
  | strict {g g' : Graph} {pool : List Shape} {s t : Shape} (made : Made careful g pool)
      (member : s ∈ pool)
      (stays : careful → ∀ r, g.Reaches s r → StaysFlat bareLeaf r)
      (ran : strict s g = .ok (t, g')) : Made careful g' (t :: pool)
  | weak {g g' : Graph} {pool : List Shape} {s t : Shape} (made : Made careful g pool) (member : s ∈ pool)
      (stays : careful → ∀ r, g.Reaches s r → StaysFlat looseLeaf r)
      (ran : weak s g = .ok (t, g')) : Made careful g' (t :: pool)

theorem Made.composed {careful : Prop} {g : Graph} {pool : List Shape}
    (made : Made careful g pool) : ∀ s ∈ pool, g.Composed careful s := by
  have step : ∀ {g g' : Graph} {pool : List Shape} {s : Shape}, (∀ s ∈ pool, g.Composed careful s) →
      g.Extends g' ∧ g'.Composed careful s → ∀ t ∈ s :: pool, g'.Composed careful t :=
    fun each ⟨grows, new⟩ => forall_mem_cons.mpr ⟨new, fun t member => (each t member).extend grows⟩
  induction made with
  | start => exact nofun
  | derive _ readable built ran result ih =>
    obtain ⟨grows, composed⟩ := Derivation.run_composed readable ran
    exact step ih ⟨grows, composed _ result⟩
  | part _ member reached ih => exact forall_mem_cons.mpr ⟨(ih _ member).reached reached, ih⟩
  | unionOf _ inclusive members ran ih =>
    have each : ∀ s ∈ _, Composed careful _ s := fun s member => ih s (members member)
    exact step ih (draw_composed each (unionOf_madeOf each inclusive) ran)
  | @intersect g _ _ a b _ _ left right ran ih =>
    have each : ∀ s ∈ [a, b], g.Composed careful s :=
      forall_mem_cons.mpr ⟨ih a left, forall_mem_singleton.mpr (ih b right)⟩
    have meets := intersect_madeOf each (madeOf_mem each mem_cons_self)
      (madeOf_mem each (mem_cons_of_mem a (mem_singleton_self b)))
    exact step ih (draw_composed each meets ran)
  | intersectAll _ members ran ih =>
    have each : ∀ s ∈ _, Composed careful _ s := fun s member => ih s (members member)
    exact step ih (draw_composed each (intersectAll_madeOf each) ran)
  | strict _ member stays ran ih =>
    exact step ih (mapLeaves_composed strictLeaf_draws bareLeaf_loosens (fun _ => bareLeaf_trim)
      (ih _ member) stays ran)
  | weak _ member stays ran ih =>
    exact step ih (mapLeaves_composed weakLeaf_draws looseLeaf_loosens (fun _ => looseLeaf_trim)
      (ih _ member) stays ran)

/-- All that is made is in normal form: the names in an object ascend, so that halving finds each
property; a union has two members or more, which are no unions, leave neither everything nor nothing
open, and are not equal to a later one; so has an intersection, and with care none of them is
one. -/
theorem Made.normalForm {careful : Prop} {g : Graph} {pool : List Shape} {s t : Shape}
    (made : Made careful g pool) (member : s ∈ pool) (reached : g.Reaches s t) :
    (∀ n props extra?, t = .object n props extra? → (props.Pairwise fun p q => p.name < q.name) ∧
      ∀ name, search props name = property? props name ∧ ∀ p, search props name = some p ↔
      p ∈ props ∧ p.name = name) ∧
      (∀ n inclusive members, t = .union n inclusive members → 2 ≤ members.length ∧
      (∀ m ∈ members, m.kind ≠ .any ∧ m.kind ≠ .never ∧ m.kind ≠ .union) ∧
      members.Pairwise fun m n => m.equal n = .ok false) ∧ ∀ n members, t = .intersection n members
      → 2 ≤ members.length ∧ (careful → ∀ m ∈ members, m.kind ≠ .intersection) := by
  have arranged : t.Arranged careful := (made.composed s member).arranged t reached
  refine ⟨?_, ?_, ?_⟩
  · rintro n props extra? rfl
    have ascending : props.Pairwise fun p q => p.name < q.name := arranged
    exact ⟨ascending, fun name =>
      ⟨search_eq_property? ascending name, fun p => search_eq_some_iff ascending⟩⟩
  · rintro n inclusive members rfl
    exact ⟨arranged.1, arranged.2.single, arranged.2.distinct⟩
  · rintro n members rfl
    exact arranged

def momentsSchema : Schema :=
  .node { allOf? := some [some (.node { ref := "#" }), some (.node { anyOf? := some [
    some (.node { allOf? := some [some (.node { ref := "#" }),
    some (.node { type := .one "string", format := "date-time" })] }),
    some (.node { allOf? := some [some (.node { ref := "#" }), some (.node { type := .one "string" })] })] })] }

theorem momentsSchema_readable : Corpus.Readable #[momentsSchema] := by
  let self : Json.Tree := .object [("$ref", "", .string "#")]
  let tree : Json.Tree := .object [("allOf", "", .array [self, .object [("anyOf", "", .array [
    .object [("allOf", "",
    .array [self, .object [("type", "", .string "string"), ("format", "", .string "date-time")]])],
    .object [("allOf", "", .array [self, .object [("type", "", .string "string")]])]])]])]
  exact .of_tree tree rfl

def moments : Shape :=
  .intersection 4 [.handle 0, .union 3 true [.intersection 1 [.handle 0, .dateTime 0 "date-time"],
    .intersection 2 [.handle 0, .string]]]

def momentsGraph : Graph := ⟨#[⟨"Root", "#", some moments⟩], 5⟩

theorem momentsGraph_made (careful : Prop) : Made careful momentsGraph [.handle 0] :=
  have derived : Derivation.run #[momentsSchema] ⟨0, []⟩ (.ofDocuments #[momentsSchema] [0]) {} {} =
      .ok (⟨.ok (.handle 0), []⟩, momentsGraph) := by cbv
  .derive (.start {}) momentsSchema_readable (.ofDocuments [0]) derived rfl

theorem moments_intersections {n : Nat} {members : List Shape}
    (reached : momentsGraph.Reaches (.handle 0) (.intersection n members)) :
    members = [.handle 0, .union 3 true [.intersection 1 [.handle 0, .dateTime 0 "date-time"],
      .intersection 2 [.handle 0, .string]]] ∨ members = [.handle 0, .dateTime 0 "date-time"] ∨
      members = [.handle 0, .string] := by
  have shapes := reached.mem_shapes
  simp [momentsGraph, moments, Shape.subshapes_eq, Shape.pieces, Shape.graphShapes] at shapes
  exact shapes.imp And.right (Or.imp And.right And.right)

theorem moments_stay (r : Shape) (reached : momentsGraph.Reaches (.handle 0) r) :
    StaysFlat looseLeaf r := by
  rintro n members rfl
  rcases moments_intersections reached with rfl | rfl | rfl
  · have alternatives : ((Shape.union 3 true [.intersection 1 [.handle 0, .dateTime 0 "date-time"],
        .intersection 2 [.handle 0, .string]]).projected looseLeaf).kind = .union := by cbv
    refine forall_mem_cons.mpr ⟨by decide, forall_mem_singleton.mpr ?_⟩
    simp [alternatives]
  · decide
  · decide

theorem moments_normalForm :
    ∃ g s members, Made True g [s, .handle 1, .handle 0] ∧ s = .intersection 10 members ∧
      2 ≤ members.length ∧ ∀ m ∈ members, m.kind ≠ .intersection := by
  let g : Graph :=
    ⟨#[⟨"Root", "#", some moments⟩, ⟨"Root", "#", some (.intersection 9 [.handle 1, .union 8 true [
    .intersection 6 [.handle 1, .union 5 false [.dateTime 0 "date-time", .string]],
    .intersection 7 [.handle 1, .string]]])⟩], 10⟩
  have projected : weak (.handle 0) momentsGraph = .ok (.handle 1, g) := by cbv
  have met : ∃ members, draw (intersect g (.handle 0) (.handle 1)) g =
      .ok (.intersection 10 members, { g with next := 11 }) :=
    ⟨_, by cbv⟩
  obtain ⟨members, met⟩ := met
  have loose := (momentsGraph_made True).weak mem_cons_self (fun _ => moments_stay) projected
  have made := loose.intersect (mem_cons_of_mem _ mem_cons_self) mem_cons_self met
  obtain ⟨two, apart⟩ := (made.normalForm mem_cons_self .self).2.2 10 members rfl
  exact ⟨_, _, members, made, rfl, two, apart trivial⟩

/-- On the wire the alternatives are the same, and the only one that is left is an intersection in
an intersection. -/
theorem strict_moments_nested :
    ∃ g s n members m, Made False g [s, .handle 0] ∧ g.Reaches s (.intersection n members) ∧
      m ∈ members ∧ m.kind = .intersection := by
  have projected : strict (.handle 0) momentsGraph = .ok (.handle 1, ⟨#[⟨"Root", "#", some moments⟩,
      ⟨"Root", "#", some (.intersection 7 [.handle 1, .intersection 5 [.handle 1, .string]])⟩],
      8⟩) := by cbv
  have made := (momentsGraph_made False).strict mem_cons_self False.elim projected
  exact ⟨_, _, 7, _, .intersection 5 [.handle 1, .string], made, .target .self rfl, by simp, rfl⟩

end JsonShape
